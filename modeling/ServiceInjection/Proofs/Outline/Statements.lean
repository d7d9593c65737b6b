import Mathlib.Data.List.Chain
import ServiceInjection.Wiring.Binding
import ServiceInjection.Proofs.Outline.Declarations

/-!
# Outline.Statements

Statements that wire services up, written and read. A fetch is an entry of a list and gives
back its id, an assignment gives back its property for its own parameter only, and a line that
returns a new object is found, unless a line in front of it could pass for one.
-/

namespace ServiceInjection

open Text List

/-! ### Fetching a service -/

/-- The text of the expression that fetches a service. -/
def fetchText (container id : List Char) : List Char :=
  '$' :: (container ++ '-' :: '>' :: 'g' :: 'e' :: 't' :: '(' :: '\'' :: (id ++ ['\'', ')']))

theorem toList_fetchExpression (container id : String) :
    (fetchExpression container id).toList = fetchText container.toList id.toList := by
  simp [fetchExpression, fetchText]

/-- Whether a text can be the id of a service in a literal. -/
def IsServiceId (id : List Char) : Prop := IsLine id ∧ '\'' ∉ id ∧ '\\' ∉ id

instance (id : List Char) : Decidable (IsServiceId id) := inferInstanceAs (Decidable (_ ∧ _))

section

variable {container id : List Char}

theorem containerGet_fetchText (hcontainer : IsName container) (hid : IsServiceId id)
    (rest : List Char) :
    containerGet (fetchText container id ++ rest) = some (⟨container, id⟩, rest) := by
  have hname : word (container ++ '-' :: '>' :: 'g' :: 'e' :: 't' :: '(' :: '\'' ::
      (id ++ '\'' :: ')' :: rest)) = some (container, '-' :: '>' :: 'g' :: 'e' :: 't' :: '(' :: '\'' ::
        (id ++ '\'' :: ')' :: rest)) :=
    word_append hcontainer (by simp [show isWord '-' = false by decide])
  have hquoted : quotedCall ('(' :: '\'' :: (id ++ '\'' :: ')' :: rest)) = some (id, rest) := by
    have hupTo := upTo_append hid.2.1 (')' :: rest)
    simp [quotedCall, literal, literalChars, blanks_cons (show isBlank '\'' = false by decide),
      blanks_cons (show isBlank ')' = false by decide), quoted, hupTo]
  simp [fetchText, containerGet, variableExpr, literal, literalChars, hname, arrowTo,
    blanks_cons (show isBlank '-' = false by decide),
    blanks_cons (show isBlank 'g' = false by decide), hquoted]

theorem of_containerGet {cs : List Char} {hit : ContainerGet × List Char}
    (h : containerGet cs = some hit) : '-' ∈ cs := by
  obtain ⟨gap, gap', behind, -, -, -, -, -, rfl⟩ := containerGet_eq_some h
  simp

/-- No service is fetched on a line without an arrow. -/
theorem fetchedOn_eq_nil {containerVar : String} {line : Line} (h : '-' ∉ line.raw) :
    fetchedOn containerVar line = [] := by
  rw [fetchedOn, allMatches, matchesFrom_eq_nil (fun _ _ => of_containerGet) h]
  rfl

/-- The cells of a fetch: all of it is code but the id. -/
theorem cells_fetchText (hcontainer : IsName container) (hid : IsServiceId id) (next : Option Char) :
    Lex.code.cells (fetchText container id) next =
      ('$' :: (container ++ ['-', '>', 'g', 'e', 't', '(', '\''])).map .show ++
        (id.map .hide ++ ['\'', ')'].map .show) ∧
      Lex.code.after (fetchText container id) next = .code := by
  have hfront : ∀ c ∈ '$' :: (container ++ ['-', '>', 'g', 'e', 't', '(']), IsPlain c := by
    refine forall_mem_cons.mpr ⟨by decide, forall_mem_append.mpr ⟨fun c hc => ?_, by decide⟩⟩
    exact (isFlat_of_isName hcontainer c hc).plain
  obtain ⟨hcells, hafter⟩ := Lex.cells_plain (some '\'') hfront
  have hhidden : ∀ c ∈ id, c ≠ '\'' ∧ c ≠ '\\' ∧ c ≠ '\n' := fun c hc =>
    ⟨fun h => hid.2.1 (h ▸ hc), fun h => hid.2.2 (h ▸ hc), fun h => hid.1.1 (h ▸ hc)⟩
  obtain ⟨hidCells, hidAfter⟩ := @Lex.cells_literal '\'' id (some '\'') hhidden
  have htext : fetchText container id = ('$' :: (container ++ ['-', '>', 'g', 'e', 't', '('])) ++
      '\'' :: (id ++ ['\'', ')']) := by
    simp [fetchText]
  have hquote : ∀ next, Lex.code.step '\'' next = (true, .literal '\'') := by
    intro next
    simp [Lex.step]
  have hclose : (Lex.literal '\'').cells ['\'', ')'] next = ['\'', ')'].map .show ∧
      (Lex.literal '\'').after ['\'', ')'] next = .code := by
    constructor <;> simp [Lex.cells, Lex.after, Lex.step, Cell.show]
  have hliteral : (Lex.literal '\'').cells (id ++ ['\'', ')']) next =
        id.map .hide ++ ['\'', ')'].map .show ∧
      (Lex.literal '\'').after (id ++ ['\'', ')']) next = .code := by
    rw [Lex.cells_append, Lex.after_append, head?_cons, Option.some_or, hidCells, hidAfter,
      hclose.1, hclose.2]
    exact ⟨rfl, rfl⟩
  rw [htext, Lex.cells_append, Lex.after_append, head?_cons, Option.some_or, hcells, hafter,
    Lex.cells, Lex.after, hquote, hliteral.1, hliteral.2]
  refine ⟨?_, rfl⟩
  simp [Cell.show]

theorem code_map_hide (cs : List Char) : Line.code (cs.map .hide) = List.replicate cs.length ' ' := by
  rw [Line.code, map_map, show Cell.code ∘ Cell.hide = fun _ => ' ' from rfl, map_const']

/-- Nested code in parentheses is nested. -/
theorem Text.Nested.parens {inner : List Char} (h : Nested inner) : Nested ('(' :: (inner ++ [')'])) := by
  obtain ⟨hround, hsquare, hcurly⟩ := h
  refine ⟨?_, ?_, ?_⟩
  · have hclose := nestedIn_append_eq hround 1 [')']
    rw [Nat.zero_add] at hclose
    rw [NestedIn, if_pos (by decide), hclose]
    rfl
  · rw [NestedIn, if_neg (by decide), if_neg (by decide)]
    exact nestedIn_append hsquare (by decide)
  · rw [NestedIn, if_neg (by decide), if_neg (by decide)]
    exact nestedIn_append hcurly (by decide)

/-- The code of a fetch, in which the id is blank. -/
theorem code_fetchText (hcontainer : IsName container) (hid : IsServiceId id) :
    (Line.ofCode (fetchText container id)).code = '$' :: (container ++ ['-', '>', 'g', 'e', 't']) ++
      '(' :: ('\'' :: (List.replicate id.length ' ' ++ ['\'']) ++ [')']) := by
  rw [Line.ofCode, (cells_fetchText hcontainer hid none).1, Line.code_append, Line.code_append,
    code_map_show, code_map_show, code_map_hide]
  simp

theorem trim_fetchText (container id : List Char) :
    trim (fetchText container id) = fetchText container id := by
  have htext : fetchText container id =
      '$' :: (container ++ ['-', '>', 'g', 'e', 't', '(', '\''] ++ id ++ ['\'']) ++ [')'] := by
    simp [fetchText]
  refine trim_eq_self_iff.mpr ⟨dropWhile_cons_of_neg (by decide), ?_⟩
  rw [htext, trimEnd, reverse_append, reverse_singleton, singleton_append,
    dropWhile_cons_of_neg (by decide), reverse_cons, reverse_reverse]

/-- A fetch is an entry of a list. -/
theorem listable_fetchText (hcontainer : IsName container) (hid : IsServiceId id) :
    Listable (fetchText container id) ∧ ¬ EndsInComment (fetchText container id) := by
  obtain ⟨hcells, hafter⟩ := cells_fetchText hcontainer hid none
  have hcode := code_fetchText hcontainer hid
  have hname := isFlat_of_isName hcontainer
  refine ⟨⟨⟨trim_fetchText container id, ?_, .inl hafter, ?_⟩, ?_⟩, ?_⟩
  · intro hblank
    have hdollar : '$' ∈ (Line.ofCode (fetchText container id)).masked := by
      rw [Line.ofCode, hcells]
      exact mem_cons_self
    exact hblank.not_mem (by decide) hdollar
  · have hcomma : ',' ∉ (Line.ofCode (fetchText container id)).code := by
      have hnone : ',' ∉ container := fun hmem => (hname _ hmem).not_comma rfl
      rw [hcode]
      simp [hnone, mem_replicate]
    exact Line.whole_of_no_comma fun cell hcell heq => hcomma (heq ▸ mem_map_of_mem hcell)
  · have hfront : Nested ('$' :: (container ++ ['-', '>', 'g', 'e', 't'])) := by
      refine nested_of_no_bracket (forall_mem_cons.mpr ⟨by decide, ?_⟩)
      exact forall_mem_append.mpr ⟨fun c hc => (hname c hc).depth, by decide⟩
    have hinner : Nested ('\'' :: (replicate id.length ' ' ++ ['\''])) := by
      refine nested_of_no_bracket (forall_mem_cons.mpr ⟨by decide, ?_⟩)
      refine forall_mem_append.mpr ⟨fun c hc => ?_, by decide⟩
      rw [(mem_replicate.mp hc).2]
      decide
    rw [Text.Balanced, hcode]
    exact hfront.append hinner.parens
  · rw [EndsInComment, hafter]
    decide

/-- Exactly one service is fetched on a line with a fetch. -/
theorem fetchedOn_fetchText (hcontainer : IsName container) (hid : IsServiceId id)
    {indent tail : List Char} (hindent : Blank indent) (htail : '-' ∉ tail) :
    fetchedOn (String.ofList container) (Line.ofCode (indent ++ (fetchText container id ++ tail))) =
      [String.ofList id] := by
  have hskip : ∀ c ∈ indent, ∀ cs, containerGet (c :: cs) = none := by
    intro c hc cs
    have hne : '$' ≠ c := by
      rintro rfl
      exact hindent.not_mem (by decide) hc
    simp [containerGet, variableExpr, literal, literalChars, hne]
  have hmatches : allMatches containerGet (indent ++ (fetchText container id ++ tail)) =
      [⟨indent.length, indent.length + (fetchText container id).length, ⟨container, id⟩⟩] := by
    have hne : fetchText container id ≠ [] := cons_ne_nil _ _
    rw [allMatches, matchesFrom_append hskip,
      matchesFrom_hit hne (containerGet_fetchText hcontainer hid tail), Nat.zero_add,
      matchesFrom_eq_nil (fun _ _ => of_containerGet) htail]
  have hshown : Line.isCodeAt (Line.ofCode (indent ++ (fetchText container id ++ tail))) indent.length =
      true := by
    obtain ⟨hcells, hafter⟩ :=
      Lex.cells_plain ((fetchText container id ++ tail).head?.or none) hindent.isPlain
    rw [Line.ofCode, Lex.cells_append, hcells, hafter, Line.isCodeAt,
      getElem?_append_right (by simp), length_map, Nat.sub_self]
    rfl
  rw [fetchedOn, Line.raw_ofCode, hmatches]
  simp [hshown]

/-- A fetch gives back its id. -/
theorem containerGetId_fetchExpression {container id : String} (hcontainer : IsName container.toList)
    (hid : IsServiceId id.toList) : containerGetId (fetchExpression container id) = some id := by
  have htrim := (listable_fetchText hcontainer hid).1.trimmed
  have hread := containerGet_fetchText hcontainer hid []
  rw [append_nil] at hread
  rw [containerGetId, toList_fetchExpression, htrim, hread]
  simp

end

/-! ### Assigning a property -/

/-- The text of the statement that stores a parameter in a property. -/
def assignText (field param : List Char) : List Char :=
  '$' :: 't' :: 'h' :: 'i' :: 's' :: '-' :: '>' :: (field ++ ' ' :: '=' :: ' ' :: '$' :: (param ++ [';']))

theorem toList_assignment (binding : Binding) (indent : String) :
    (binding.assignment indent).toList =
      indent.toList ++ assignText binding.field.toList binding.param.toList := by
  simp [Binding.assignment, assignText]

theorem fieldAssignment_assignText {field param : List Char} (hfield : IsName field)
    (hparam : IsName param) (rest : List Char) :
    fieldAssignment (assignText field param ++ rest) = some ((field, param), rest) := by
  have hfieldWord : word (field ++ ' ' :: '=' :: ' ' :: '$' :: (param ++ ';' :: rest)) =
      some (field, ' ' :: '=' :: ' ' :: '$' :: (param ++ ';' :: rest)) :=
    word_append hfield (by simp [show isWord ' ' = false by decide])
  have hparamWord : word (param ++ ';' :: rest) = some (param, ';' :: rest) :=
    word_append hparam (by simp [show isWord ';' = false by decide])
  have hequals : blanks (' ' :: '=' :: ' ' :: '$' :: (param ++ ';' :: rest)) =
      '=' :: ' ' :: '$' :: (param ++ ';' :: rest) := rfl
  have hdollar : blanks (' ' :: '$' :: (param ++ ';' :: rest)) = '$' :: (param ++ ';' :: rest) := rfl
  have hname : blanks (field ++ ' ' :: '=' :: ' ' :: '$' :: (param ++ ';' :: rest)) =
      field ++ ' ' :: '=' :: ' ' :: '$' :: (param ++ ';' :: rest) := by
    obtain ⟨hne, hall⟩ := hfield
    cases field with
    | nil => exact absurd rfl hne
    | cons c field =>
      exact blanks_cons (isBlank_of_isNameChar (isNameChar_of_isWord (hall c mem_cons_self))) _
  simp [fieldAssignment, assignText, literal, literalChars, arrowTo,
    blanks_cons (show isBlank '-' = false by decide), hname, hfieldWord, hequals, hdollar,
    variableExpr, hparamWord, blanks_cons (show isBlank ';' = false by decide)]

theorem of_fieldAssignment {cs : List Char} {hit : (List Char × List Char) × List Char}
    (h : fieldAssignment cs = some hit) : '=' ∈ cs := by
  simp only [fieldAssignment, Option.bind_eq_bind, Option.bind_eq_some_iff] at h
  obtain ⟨cs₁, hthis, cs₂, harrow, ⟨field, cs₃⟩, hword, cs₄, hequals, -⟩ := h
  obtain ⟨gap, gap', -, -, rfl⟩ := arrowTo_eq_some harrow
  obtain ⟨rfl, -⟩ := word_eq_some hword
  have hmem : '=' ∈ cs₃ := by
    have hblanks : blanks cs₃ ⊆ cs₃ := (dropWhile_suffix isBlank).subset
    refine hblanks ?_
    rw [literal_eq_some.mp hequals]
    simp
  rw [literal_eq_some.mp hthis]
  simp [hmem]

/-- A written assignment assigns its parameter, and no other. -/
theorem assignedField_assignment {binding : Binding} (hfield : IsName binding.field.toList)
    (hparam : IsName binding.param.toList) {indent : String} (hindent : Blank indent.toList)
    (param : String) :
    assignedField (binding.assignment indent) param =
      if binding.param = param then some binding.field else none := by
  have hskip : ∀ c ∈ indent.toList, ∀ cs, fieldAssignment (c :: cs) = none := by
    intro c hc cs
    have hne : '$' ≠ c := by
      rintro rfl
      exact hindent.not_mem (by decide) hc
    simp [fieldAssignment, literal, literalChars, hne]
  have hne : assignText binding.field.toList binding.param.toList ≠ [] := cons_ne_nil _ _
  have hread := fieldAssignment_assignText hfield hparam []
  have hmatches := matchesFrom_hit hne hread (0 + indent.toList.length)
  rw [append_nil] at hmatches
  rw [assignedField, toList_assignment, allMatches, matchesFrom_append hskip, hmatches]
  by_cases hsame : binding.param = param <;> simp [matchesFrom, hsame]

theorem assignedField_eq_none {line : String} (h : '=' ∉ line.toList) (param : String) :
    assignedField line param = none := by
  rw [assignedField, allMatches, matchesFrom_eq_nil (fun _ _ => of_fieldAssignment) h]
  rfl

/-! ### Returning a new object -/

/-- The words that stand for the class of a factory. -/
def IsClassWord (keyword : String) : Prop := keyword = "static" ∨ keyword = "self"

/-- The text in front of the arguments for a new object. -/
def returnText (keyword : String) : List Char :=
  ['r', 'e', 't', 'u', 'r', 'n', ' ', 'n', 'e', 'w', ' '] ++ (keyword.toList ++ ['('])

theorem returnNew_returnText {keyword : String} (h : IsClassWord keyword) (rest : List Char) :
    returnNew (returnText keyword ++ rest) = some (keyword, rest) := by
  have hblank : isBlank ' ' = true := by decide
  have hn : isBlank 'n' = false := by decide
  have hs : isBlank 's' = false := by decide
  have hparen : isBlank '(' = false := by decide
  have hstatic : "static".toList = ['s', 't', 'a', 't', 'i', 'c'] := by decide
  have hself : "self".toList = ['s', 'e', 'l', 'f'] := by decide
  rcases h with rfl | rfl
  all_goals
    simp [returnNew, returnText, literal, literalChars, someBlanks, blanks, oneOf, hblank, hn, hs,
      hparen, hstatic, hself]

theorem isClassWord_of_returnNew {cs rest : List Char} {keyword : String}
    (h : returnNew cs = some (keyword, rest)) : IsClassWord keyword := by
  simp only [returnNew, Option.bind_eq_bind, Option.bind_eq_some_iff] at h
  obtain ⟨_, _, _, _, _, _, _, _, ⟨word, _⟩, hword, _, _, h⟩ := h
  obtain ⟨rfl, -⟩ := Prod.mk.inj (Option.some.inj h)
  obtain ⟨found, hmem, hfound⟩ := exists_of_findSome?_eq_some hword
  obtain ⟨_, _, heq⟩ := Option.map_eq_some_iff.mp hfound
  obtain ⟨rfl, -⟩ := Prod.mk.inj heq
  simpa [IsClassWord] using hmem

theorem plain_returnText {keyword : String} (h : IsClassWord keyword) :
    ∀ c ∈ returnText keyword, IsPlain c ∧ c ≠ '\n' ∧ c ≠ '{' ∧ c ≠ '}' := by
  rcases h with rfl | rfl <;> decide

/-- Whether no blank stands in front of `target`. -/
def Text.NoneBehindBlank (target : Char) (cs : List Char) : Prop :=
  cs.IsChain fun b c => isBlank b = true → c ≠ target

instance (target : Char) (cs : List Char) : Decidable (NoneBehindBlank target cs) :=
  inferInstanceAs (Decidable (List.IsChain _ cs))

namespace Text.NoneBehindBlank

variable {target : Char} {a b cs : List Char}

theorem append (ha : NoneBehindBlank target a) (hb : NoneBehindBlank target b)
    (h : (∀ c ∈ a.getLast?, isBlank c = false) ∨ b.head? ≠ some target) :
    NoneBehindBlank target (a ++ b) := by
  refine List.IsChain.append ha hb fun x hx y hy hblank => ?_
  rcases h with h | h
  · rw [h x hx] at hblank
    cases hblank
  · rintro rfl
    exact h hy

theorem of_not_mem (h : target ∉ cs) : NoneBehindBlank target cs :=
  List.Pairwise.isChain (pairwise_of_forall_mem_list fun _ _ _ hc _ heq => h (heq ▸ hc))

theorem of_not_blank (h : ∀ c ∈ cs, isBlank c = false) : NoneBehindBlank target cs :=
  List.Pairwise.isChain (pairwise_of_forall_mem_list fun b hb _ _ hblank => by
    rw [h b hb] at hblank
    cases hblank)

end Text.NoneBehindBlank

theorem not_returnNew {cs : List Char} (h : NoneBehindBlank 'n' cs) : returnNew cs = none := by
  rw [Option.eq_none_iff_forall_ne_some]
  intro hit hread
  simp only [returnNew, Option.bind_eq_bind, Option.bind_eq_some_iff] at hread
  obtain ⟨cs₁, hreturn, cs₂, hblanks, cs₃, hnew, -⟩ := hread
  obtain rfl := literal_eq_some.mp hreturn
  obtain rfl := literal_eq_some.mp hnew
  cases cs₁ with
  | nil => cases hblanks
  | cons c cs₁ =>
    have hc : isBlank c = true := by
      cases hc : isBlank c with
      | true => rfl
      | false => simp [someBlanks, hc] at hblanks
    obtain ⟨gap, hgap, heq⟩ := exists_blanks cs₁
    have hbehind : blanks cs₁ = "new".toList ++ cs₃ := by
      rw [someBlanks, if_pos hc] at hblanks
      exact Option.some.inj hblanks
    rw [heq, hbehind] at h
    -- The last of the blanks stands in front of the keyword.
    have hrest : ((c :: gap) ++ ("new".toList ++ cs₃)).IsChain
        fun b c => isBlank b = true → c ≠ 'n' := h.suffix ⟨"return".toList, by simp⟩
    have hedge := hrest.rel_getLast_head_of_append (cons_ne_nil _ _) (by simp)
    have hblank : ∀ d ∈ c :: gap, isBlank d = true := forall_mem_cons.mpr ⟨hc, hgap⟩
    exact hedge (hblank _ (getLast_mem _)) (by simp)

/-- No object is returned on a line where no blank stands in front of the keyword. -/
theorem firstWordMatch_returnNew_eq_none {cs : List Char} (h : NoneBehindBlank 'n' cs) :
    firstWordMatch returnNew cs = none :=
  firstMatchFrom_eq_none (fun _ htail => not_returnNew (h.suffix htail)) none 0

theorem firstWordMatch_returnText {keyword : String} (h : IsClassWord keyword) {indent : List Char}
    (hindent : Blank indent) :
    firstWordMatch returnNew (indent ++ returnText keyword) =
      some ⟨indent.length, indent.length + (returnText keyword).length, keyword⟩ := by
  have hskip : ∀ c ∈ indent, ∀ cs, returnNew (c :: cs) = none := by
    intro c hc cs
    have hne : 'r' ≠ c := by
      rintro rfl
      exact hindent.not_mem (by decide) hc
    simp [returnNew, literal, literalChars, hne]
  have hallowed : outsideWord (indent.getLast?.or none) = true := by
    cases hlast : indent.getLast? with
    | none => rfl
    | some c =>
      have hc := not_isWord_of_isBlank (hindent c (mem_of_getLast? hlast))
      simp [outsideWord, hc]
  have hread := returnNew_returnText h []
  have hhit := @firstMatchFrom_hit _ returnNew _ (returnText keyword) [] keyword _ (cons_ne_nil _ _)
    hallowed hread (0 + indent.length)
  rw [append_nil, Nat.zero_add] at hhit
  rw [firstWordMatch, firstMatchFrom_append hskip, Nat.zero_add, hhit]

end ServiceInjection
