import ServiceInjection.Proofs.Outline.Variables
import ServiceInjection.Proofs.Outline.Written

/-!
# Outline.Declarations

Declarations that are written out. `declText` spells out a variable with its type, and
`propertyText` a property. A parameter is read as it was declared (`Param.of?_declText`), and
a line with a property declares it wherever it stands in a class (`Declares.property`): none
of the other readings of such a line applies, whatever class its type names.
-/

namespace ServiceInjection

open Text List

variable {c : Char} {indent : List Char}

/-! ### Variables -/

/-- A variable as it is declared: its type, if it has one, and its name. -/
def declText (hint : Option (List Char)) (name : List Char) : List Char :=
  match hint with
  | some hint => hint ++ ' ' :: '$' :: name
  | none => '$' :: name

/-- Whether a text can be the type of a variable: a qualified name, but none of the given
words. -/
def IsTypeOf (words : List String) (hint : Option (List Char)) : Prop :=
  ∀ cs ∈ hint, IsQualified cs ∧ String.ofList cs ∉ words

instance (words : List String) (hint : Option (List Char)) : Decidable (IsTypeOf words hint) :=
  inferInstanceAs (Decidable (∀ cs ∈ hint, _))

section

variable {words : List String} {hint : Option (List Char)} {name tail : List Char}

/-- A declaration is read as it is written. -/
theorem declarationAfter_declText (hwords : ∀ w ∈ words, IsName w.toList)
    (hhint : IsTypeOf words hint) (hname : IsName name) (htail : EndsName tail) (marks : Bool)
    (front : List Char) :
    declarationAfter words marks front (declText hint name ++ tail) =
      some (⟨front, hint, name⟩, tail) := by
  cases hint with
  | none => exact declarationAfter_untyped hwords hname htail front
  | some hint =>
    obtain ⟨hqualified, hclass⟩ := hhint hint rfl
    have := @declarationAfter_typed words marks name tail hint hwords hqualified hclass hname htail
      front
    simpa [declText] using this

/-- Whether a character is code that neither divides nor encloses anything. -/
structure Text.IsFlat (c : Char) : Prop where
  plain : IsPlain c
  not_comma : c ≠ ','
  not_stop : c ≠ ';'
  line : c ≠ '\n' ∧ c ≠ '\r'
  depth : depthChange c = 0

theorem Text.IsFlat.not_brace (h : IsFlat c) : c ≠ '{' ∧ c ≠ '}' := by
  constructor <;> rintro rfl <;> exact absurd h.depth (by decide)

/-- Whether a character is code on one line, and no brace. -/
def Text.IsInline (c : Char) : Prop := IsPlain c ∧ c ≠ '{' ∧ c ≠ '}' ∧ c ≠ '\n' ∧ c ≠ '\r'

instance (c : Char) : Decidable (IsInline c) := inferInstanceAs (Decidable (_ ∧ _))

theorem Text.IsFlat.isInline (h : IsFlat c) : IsInline c :=
  ⟨h.plain, h.not_brace.1, h.not_brace.2, h.line.1, h.line.2⟩

theorem isFlat_of_isNameChar (h : isNameChar c = true) : IsFlat c := by
  have hne : ∀ d : Char, isNameChar d = false → c ≠ d := by
    rintro d hd rfl
    rw [h] at hd
    cases hd
  have hquote : ¬ IsQuote c := by
    rintro (hc | hc)
    · exact hne _ (by decide) hc
    · exact hne _ (by decide) hc
  have hround := hne '(' (by decide)
  have hround' := hne ')' (by decide)
  have hsquare := hne '[' (by decide)
  have hsquare' := hne ']' (by decide)
  have hcurly := hne '\x7b' (by decide)
  have hcurly' := hne '\x7d' (by decide)
  refine ⟨⟨hquote, hne _ (by decide), hne _ (by decide)⟩, hne _ (by decide), hne _ (by decide),
    ⟨hne _ (by decide), hne _ (by decide)⟩, ?_⟩
  simp [depthChange, hround, hround', hsquare, hsquare', hcurly, hcurly']

theorem isFlat_of_isName (h : IsName name) : ∀ c ∈ name, IsFlat c := fun c hc =>
  isFlat_of_isNameChar (isNameChar_of_isWord (h.2 c hc))

theorem isFlat_space : IsFlat ' ' := ⟨by decide, by decide, by decide, by decide, by decide⟩

theorem isFlat_dollar : IsFlat '$' := ⟨by decide, by decide, by decide, by decide, by decide⟩

theorem isFlat_declText (hhint : ∀ cs ∈ hint, IsQualified cs) (hname : IsName name) :
    ∀ c ∈ declText hint name, IsFlat c := by
  cases hint with
  | none => exact forall_mem_cons.mpr ⟨isFlat_dollar, isFlat_of_isName hname⟩
  | some hint =>
    refine forall_mem_append.mpr ⟨fun c hc => ?_, ?_⟩
    · exact isFlat_of_isNameChar ((hhint hint rfl).2 c hc)
    · exact forall_mem_cons.mpr ⟨isFlat_space,
        forall_mem_cons.mpr ⟨isFlat_dollar, isFlat_of_isName hname⟩⟩

/-! ### Parameters -/

/-- A declaration starts with no blank and with no attribute. -/
theorem exists_declText (hint : Option (List Char)) (name : List Char)
    (hhint : ∀ cs ∈ hint, IsQualified cs) :
    ∃ c rest, declText hint name = c :: rest ∧ isBlank c = false ∧ c ≠ '#' := by
  cases hint with
  | none => exact ⟨'$', name, rfl, by decide, by decide⟩
  | some hint =>
    obtain ⟨hne, hall⟩ := hhint hint rfl
    cases hint with
    | nil => exact absurd rfl hne
    | cons c hint =>
      have hc := hall c mem_cons_self
      exact ⟨c, _, rfl, isBlank_of_isNameChar hc, (isFlat_of_isNameChar hc).plain.2.2⟩

theorem trim_declText (hhint : ∀ cs ∈ hint, IsQualified cs) (hname : IsName name) :
    trim (declText hint name) = declText hint name := by
  refine trim_eq_self_iff.mpr ⟨?_, ?_⟩
  · obtain ⟨c, rest, heq, hblank, -⟩ := exists_declText hint name hhint
    rw [heq, trimStart, dropWhile_cons_of_neg (by simp [hblank])]
  · obtain ⟨front, last, rfl⟩ : ∃ front last, name = front ++ [last] := by
      rcases eq_nil_or_concat name with rfl | ⟨front, last, rfl⟩
      · exact absurd rfl hname.1
      · exact ⟨front, last, concat_eq_append⟩
    have hlast := isBlank_of_isNameChar (isNameChar_of_isWord (hname.2 last (by simp)))
    obtain ⟨init, heq⟩ : ∃ init, declText hint (front ++ [last]) = init ++ [last] := by
      cases hint with
      | none => exact ⟨'$' :: front, rfl⟩
      | some hint => exact ⟨hint ++ ' ' :: '$' :: front, by simp [declText]⟩
    rw [heq, trimEnd, reverse_append, reverse_singleton, singleton_append,
      dropWhile_cons_of_neg (by simp [hlast]), reverse_cons, reverse_reverse]

theorem skipAttributes_declText (hhint : ∀ cs ∈ hint, IsQualified cs) (tail : List Char) :
    skipAttributes (declText hint name ++ tail) = declText hint name ++ tail := by
  obtain ⟨c, rest, heq, -, hc⟩ := exists_declText hint name hhint
  rw [skipAttributes_of_not_startsWith]
  simp [heq, startsWith, isPrefixOf, Ne.symm hc]

/-- A parameter is read as it is declared. -/
theorem Param.of?_declText (hhint : IsTypeOf paramModifiers hint) (hname : IsName name)
    (text : List Char) :
    Param.of? text (declText hint name) = some {
      name := String.ofList name
      typeHint := hint.map String.ofList
      promoted := false
      text := String.ofList text } := by
  have hskip := @skipAttributes_declText hint name (fun cs hcs => (hhint cs hcs).1) []
  have hread := @declarationAfter_declText paramModifiers hint name [] (by decide) hhint hname
    (by simp [EndsName]) true []
  rw [append_nil] at hskip hread
  rw [Param.of?, paramDecl, hskip, hread]
  rfl

/-- A list entry of code that no comma divides and that has no brackets. -/
theorem Listable.of_flat {entry : List Char} (htrim : trim entry = entry) (hne : entry ≠ [])
    (h : ∀ c ∈ entry, IsFlat c) :
    Listable entry ∧ ¬ EndsInComment entry ∧ Entry.ofText entry = ⟨entry, entry⟩ := by
  obtain ⟨hcells, hafter⟩ := Lex.cells_plain none fun c hc => (h c hc).plain
  have hcode := Line.code_ofCode fun c hc => (h c hc).plain
  have hmasked : (Line.ofCode entry).masked = entry := by
    rw [Line.ofCode, hcells, Line.masked, flatMap_map]
    exact flatMap_singleton' entry
  refine ⟨⟨⟨htrim, ?_, .inl hafter, ?_⟩, ?_⟩, ?_, ?_⟩
  · rw [hmasked, ← trim_eq_nil_iff, htrim]
    exact hne
  · refine Line.whole_of_no_comma fun cell hcell => ?_
    have hmem : cell.code ∈ (Line.ofCode entry).code := mem_map_of_mem hcell
    rw [hcode] at hmem
    exact (h _ hmem).not_comma
  · rw [Text.Balanced, hcode]
    exact nested_of_no_bracket fun c hc => (h c hc).depth
  · rw [EndsInComment, hafter]
    decide
  · rw [Entry.ofText, hmasked, htrim]

/-! ### Properties -/

theorem skipModifiers_cons {word : String} {front cs : List Char}
    (h : oneOf words (front ++ ' ' :: cs) = some (word, ' ' :: cs)) (hcs : blanks cs = cs) :
    skipModifiers words (front ++ ' ' :: cs) = skipModifiers words cs := by
  have hblanks : someBlanks (' ' :: cs) = some cs := by
    rw [someBlanks, if_pos (by decide), hcs]
  rw [skipModifiers, h, Option.bind_some, hblanks]
  simp only [length_append, length_cons]
  rw [if_pos (by omega)]

theorem modifier_of_skip {cs rest : List Char}
    (h : (oneOf words cs).bind (fun hit => someBlanks hit.2) = some rest) :
    modifier words cs = some rest := by
  obtain ⟨⟨w, behind⟩, hone, hblanks⟩ := Option.bind_eq_some_iff.mp h
  have hparen : literal "(" behind = none := by
    cases behind with
    | nil => rfl
    | cons c behind =>
      rw [Option.eq_none_iff_forall_ne_some]
      intro more hmore
      cases literal_eq_some.mp hmore
      cases hblanks
  rw [modifier, hone]
  simpa [hparen] using hblanks

theorem skipModifiers_dollar (hwords : ∀ w ∈ words, IsName w.toList) (cs : List Char) :
    skipModifiers words ('$' :: cs) = '$' :: cs := by
  rw [skipModifiers]
  split
  · rfl
  · rename_i rest h
    exact absurd (modifier_of_skip h) (by rw [modifier_dollar hwords]; exact nofun)

/-- What is left of a declaration behind words: all of it, or the name if its type is one
of the words. -/
theorem skipModifiers_declText (hwords : ∀ w ∈ words, IsName w.toList)
    (hhint : ∀ cs ∈ hint, IsQualified cs) (tail : List Char) :
    skipModifiers words (declText hint name ++ tail) = '$' :: (name ++ tail) ∨
      ∃ cs ∈ hint, skipModifiers words (declText hint name ++ tail) =
        cs ++ ' ' :: '$' :: (name ++ tail) := by
  cases hint with
  | none => exact .inl (skipModifiers_dollar hwords _)
  | some hint =>
    have htext : declText (some hint) name ++ tail = hint ++ ' ' :: '$' :: (name ++ tail) := by
      simp [declText]
    rw [htext, skipModifiers]
    split
    · exact .inr ⟨hint, rfl, rfl⟩
    · rename_i rest h
      obtain ⟨-, rfl⟩ := modifier_typed hwords (hhint hint rfl) (modifier_of_skip h)
      split
      · exact .inl (skipModifiers_dollar hwords _)
      · exact .inr ⟨hint, rfl, rfl⟩

/-- A keyword with blanks behind it is the type. -/
theorem keyword_typed {cs rest rest' more : List Char} {keyword : String} (hcs : IsQualified cs)
    (hkeyword : IsName keyword.toList) (h : literal keyword (cs ++ ' ' :: more) = some rest)
    (hblanks : someBlanks rest = some rest') : String.ofList cs = keyword ∧ rest' = blanks more := by
  obtain ⟨left, rfl, rfl⟩ := literal_typed hkeyword h
  cases left with
  | nil =>
    refine ⟨by simp, ?_⟩
    rw [nil_append, someBlanks, if_pos (by decide)] at hblanks
    exact (Option.some.inj hblanks).symm
  | cons c left =>
    have hc := isBlank_of_isNameChar (hcs.2 c (by simp))
    simp [someBlanks, hc] at hblanks

/-- The visibility of a property that is written. -/
def visibilityWord : List Char := ['p', 'r', 'o', 't', 'e', 'c', 't', 'e', 'd']

/-- A property as it is declared. -/
def propertyText (hint : Option (List Char)) (name : List Char) : List Char :=
  visibilityWord ++ ' ' :: (declText hint name ++ [';'])

theorem blanks_declText (hhint : ∀ cs ∈ hint, IsQualified cs) (tail : List Char) :
    blanks (declText hint name ++ tail) = declText hint name ++ tail := by
  obtain ⟨c, rest, heq, hblank, -⟩ := exists_declText hint name hhint
  rw [heq, cons_append, blanks_cons hblank]

theorem blanks_propertyText (hindent : Blank indent) :
    blanks (indent ++ propertyText hint name) = propertyText hint name := by
  rw [blanks, dropWhile_append_of_pos hindent]
  exact blanks_cons (by decide) _

/-- Behind its visibility, a property is read like any declaration. -/
theorem skipModifiers_propertyText (hfirst : ∀ cs, oneOf words (visibilityWord ++ cs) =
      some ("protected", cs)) (hwords : ∀ w ∈ words, IsName w.toList)
    (hhint : ∀ cs ∈ hint, IsQualified cs) :
    skipModifiers words (propertyText hint name) = '$' :: (name ++ [';']) ∨
      ∃ cs ∈ hint, skipModifiers words (propertyText hint name) =
        cs ++ ' ' :: '$' :: (name ++ [';']) := by
  rw [propertyText, skipModifiers_cons (hfirst _) (blanks_declText hhint _)]
  exact skipModifiers_declText hwords hhint [';']

theorem skipAttributes_propertyText :
    skipAttributes (propertyText hint name) = propertyText hint name :=
  skipAttributes_of_not_startsWith rfl

/-- A property is no method, even if its type is spelled like the keyword. -/
theorem MethodHead.of?_propertyText (hindent : Blank indent) (hhint : ∀ cs ∈ hint, IsQualified cs) :
    MethodHead.of? (indent ++ propertyText hint name) = none := by
  rw [Option.eq_none_iff_forall_ne_some]
  intro head h
  simp only [MethodHead.of?, blanks_propertyText hindent, skipAttributes_propertyText,
    Option.bind_eq_bind, Option.bind_eq_some_iff] at h
  obtain ⟨cs, hfunction, cs', hblanks, hit, hword, -⟩ := h
  have hskip := @skipModifiers_propertyText
    ["public", "protected", "private", "static", "abstract", "final"] hint name
    (fun cs => by simp [visibilityWord, oneOf, literal, literalChars]) (by decide) hhint
  rcases hskip with hskip | ⟨typed, htyped, hskip⟩
  · rw [hskip] at hfunction
    simp [literal, literalChars] at hfunction
  · rw [hskip] at hfunction
    obtain ⟨-, rfl⟩ := keyword_typed (hhint typed htyped) (by decide) hfunction hblanks
    simp [blanks, show isBlank '$' = false by decide, skipChar, word, run,
      show isWord '$' = false by decide] at hword

/-- A property is no constant, unless its type is the keyword. -/
theorem isConstant_propertyText (hindent : Blank indent) (hhint : IsTypeOf ["const"] hint) :
    isConstant (indent ++ propertyText hint name) = false := by
  rw [isConstant, blanks_propertyText hindent, Option.isSome_eq_false_iff, Option.isNone_iff_eq_none,
    Option.eq_none_iff_forall_ne_some]
  intro rest h
  obtain ⟨cs, hconst, hblanks⟩ := Option.bind_eq_some_iff.mp h
  have hskip := @skipModifiers_propertyText ["public", "protected", "private", "final"] hint name
    (fun cs => by simp [visibilityWord, oneOf, literal, literalChars]) (by decide) fun cs hcs => (hhint cs hcs).1
  rcases hskip with hskip | ⟨typed, htyped, hskip⟩
  · rw [hskip] at hconst
    simp [literal, literalChars] at hconst
  · rw [hskip] at hconst
    obtain ⟨hqualified, hnot⟩ := hhint typed htyped
    exact hnot (by simp [(keyword_typed hqualified (by decide) hconst hblanks).1])

theorem propertyDecl_propertyText (hindent : Blank indent) (hhint : IsTypeOf propertyModifiers hint)
    (hname : IsName name) : propertyDecl (indent ++ propertyText hint name) =
      some ⟨visibilityWord ++ [' '], hint, name⟩ := by
  have hqualified : ∀ cs ∈ hint, IsQualified cs := fun cs hcs => (hhint cs hcs).1
  have hmodifier : modifier propertyModifiers (propertyText hint name) =
      some (declText hint name ++ [';']) := by
    have hblanks : someBlanks (' ' :: (declText hint name ++ [';'])) =
        some (declText hint name ++ [';']) := by
      rw [someBlanks, if_pos (by decide), blanks_declText hqualified]
    simpa [modifier, propertyText, visibilityWord, propertyModifiers, oneOf, literal, literalChars] using hblanks
  have hfront : (propertyText hint name).take ((propertyText hint name).length -
      (declText hint name ++ [';']).length) = visibilityWord ++ [' '] := by
    rw [propertyText, append_cons, length_append, Nat.add_sub_cancel, take_left]
  have hread := @declarationAfter_declText propertyModifiers hint name [';'] (by decide) hhint hname
    (by simp [EndsName, show isWord ';' = false by decide]) false (visibilityWord ++ [' '])
  simp only [propertyDecl, blanks_propertyText hindent, skipAttributes_propertyText, hmodifier,
    Option.bind_eq_bind, Option.bind_some, hfront, hread, Option.map_some]

theorem propertyText_eq (hint : Option (List Char)) (name : List Char) :
    propertyText hint name = (visibilityWord ++ ' ' :: declText hint name) ++ [';'] := by
  simp [propertyText]

/-- Everything in front of the semicolon of a property is flat. -/
theorem isFlat_property (hhint : ∀ cs ∈ hint, IsQualified cs) (hname : IsName name) :
    ∀ c ∈ visibilityWord ++ ' ' :: declText hint name, IsFlat c := by
  have hword : ∀ c ∈ visibilityWord, isNameChar c = true := by decide +kernel
  refine forall_mem_append.mpr ⟨fun c hc => isFlat_of_isNameChar (hword c hc), ?_⟩
  exact forall_mem_cons.mpr ⟨isFlat_space, isFlat_declText hhint hname⟩

theorem isLine_propertyText (hhint : ∀ cs ∈ hint, IsQualified cs) (hname : IsName name) :
    IsLine (propertyText hint name) := by
  have hfront := isFlat_property hhint hname
  rw [propertyText_eq]
  constructor <;> rw [mem_append] <;> rintro (hmem | hmem)
  · exact (hfront _ hmem).line.1 rfl
  · simp at hmem
  · exact (hfront _ hmem).line.2 rfl
  · simp at hmem

section

variable {indent : List Char}

/-- A line with a property is code without braces. -/
theorem plain_property (hindent : Blank indent) (hhint : ∀ cs ∈ hint, IsQualified cs)
    (hname : IsName name) :
    ∀ c ∈ indent ++ propertyText hint name, IsPlain c ∧ c ≠ '{' ∧ c ≠ '}' := by
  have hfront := isFlat_property hhint hname
  rw [propertyText_eq]
  refine forall_mem_append.mpr ⟨fun c hc => ⟨hindent.isPlain c hc, ?_, ?_⟩,
    forall_mem_append.mpr ⟨fun c hc => ⟨(hfront c hc).plain, (hfront c hc).not_brace⟩, by decide⟩⟩
  · rintro rfl
    exact hindent.not_mem (by decide) hc
  · rintro rfl
    exact hindent.not_mem (by decide) hc

/-- The semicolon that ends a property is on its line. -/
theorem firstOf_property (hindent : Blank indent) (hhint : ∀ cs ∈ hint, IsQualified cs)
    (hname : IsName name) (hfeed : '\n' ∉ indent ++ propertyText hint name) :
    ((Source.written [indent ++ propertyText hint name]).firstOf ⟨0, 0⟩ [';']).map (·.spot.line) =
      some 0 := by
  have hvalid : (Source.written [indent ++ propertyText hint name]).Valid ⟨0, 0⟩ :=
    ⟨_, rfl, Nat.zero_le _⟩
  have hrest : (Source.written [indent ++ propertyText hint name]).rest ⟨0, 0⟩ =
      (indent ++ (visibilityWord ++ ' ' :: declText hint name)).map .show ++ [.show ';'] := by
    show (Source.written [indent ++ propertyText hint name]).line 0 = _
    rw [Source.line_written hfeed,
      (Lex.cells_plain none fun c hc => (plain_property hindent hhint hname c hc).1).1, propertyText_eq]
    simp
  have hstop : (Source.written [indent ++ propertyText hint name]).firstOf ⟨0, 0⟩ [';'] =
      some ⟨⟨0, (indent ++ (visibilityWord ++ ' ' :: declText hint name)).length⟩, ';'⟩ := by
    rw [Source.firstOf_eq hvalid (by decide), hrest, Source.firstGlyph_eq_some_iff]
    refine ⟨_, _, [], rfl, fun c hc => ?_, by decide, ?_⟩
    · rw [code_map_show, mem_append] at hc
      rw [mem_singleton]
      rcases hc with hc | hc
      · rintro rfl
        exact hindent.not_mem (by decide) hc
      · exact (isFlat_property hhint hname c hc).not_stop
    · rw [length_map, Source.advance, Nat.zero_add]
      rfl
  rw [hstop]
  rfl

/-- **Written properties are read.** A property on a line of its own is declared with its type,
wherever the line stands. -/
theorem Declares.property (hindent : Blank indent) (hline : '\n' ∉ indent)
    (hhint : IsTypeOf ("const" :: propertyModifiers) hint) (hname : IsName name) :
    Declares [indent ++ propertyText hint name]
      { fields := [⟨String.ofList name, 0, hint.map String.ofList, none, false⟩] } := by
  have hqualified : ∀ cs ∈ hint, IsQualified cs := fun cs hcs => (hhint cs hcs).1
  have hproperty : IsTypeOf propertyModifiers hint := fun cs hcs =>
    ⟨hqualified cs hcs, fun hmem => (hhint cs hcs).2 (mem_cons_of_mem _ hmem)⟩
  have hconst : IsTypeOf ["const"] hint := fun cs hcs =>
    ⟨hqualified cs hcs, fun hmem => (hhint cs hcs).2 (by simp_all)⟩
  have hfeed : '\n' ∉ indent ++ propertyText hint name := fun hmem =>
    (mem_append.mp hmem).elim hline (isLine_propertyText hqualified hname).1
  have hplain := plain_property hindent hqualified hname
  have hblock : CodeBlock (unlines [indent ++ propertyText hint name]) none := by
    refine .of_passes (.plain ?_)
    rw [unlines_cons, unlines_nil]
    exact forall_mem_append.mpr ⟨hplain, by decide⟩
  refine .of_block (by simpa using hfeed) hblock.ends hblock.nested ?_
  have hraw : (Source.written [indent ++ propertyText hint name]).raw 0 =
      indent ++ propertyText hint name := by
    rw [Source.raw, Source.line_written hfeed, Lex.raw_cells]
  have hcode : (Source.written [indent ++ propertyText hint name]).code 0 =
      indent ++ propertyText hint name := by
    rw [Source.code, Source.line_written hfeed]
    exact Line.code_ofCode fun c hc => (hplain c hc).1
  have htrim : trimStart (indent ++ propertyText hint name) = propertyText hint name :=
    blanks_propertyText hindent
  have hblank : isBlankLine (indent ++ propertyText hint name) = false := by
    rw [isBlankLine, all_append, show (propertyText hint name).all isBlank = false from rfl,
      Bool.and_false]
  have htrait : isTraitUse (indent ++ propertyText hint name) = false := by
    rw [isTraitUse, blanks_propertyText hindent]
    rfl
  obtain ⟨stop, hstop, hstopLine⟩ :=
    Option.map_eq_some_iff.mp (firstOf_property hindent hqualified hname hfeed)
  simp only [Source.blockAt?, Source.memberAt?, hraw, hcode, htrim, hblank, htrait, hstop,
    MethodHead.of?_propertyText hindent hqualified, isConstant_propertyText hindent hconst,
    propertyDecl_propertyText hindent hproperty hname, Option.map_some, hstopLine]
  rfl

end

end

end ServiceInjection
