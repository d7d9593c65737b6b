import ServiceInjection.Proofs.Wiring.FreshConstructor

/-!
# Wiring.FreshFactory

New factories, rendered and read. A new factory passes on the variables of its role and then
one fetch for each binding, one argument a line. It is read with these arguments, and fetches
the services in order (`freshFactory_declares`): nothing in its signature could pass for the
statement that returns the object, and no other line of it fetches a service.
-/

namespace ServiceInjection

open Text List

variable {indent : String} {arguments : List String}

/-! ### Signatures of factories -/

/-- The parameters of a factory. -/
def factorySlots (conventions : Conventions) (containerType : String) : List Slot :=
  ⟨"container", containerType ++ " $container"⟩ :: conventions.leadingParams.map (·.slot)

theorem listText_append_cons (gap front entry : List Char) (rest : List (List Char)) :
    listText gap ((front ++ entry) :: rest) = front ++ listText gap (entry :: rest) := by
  by_cases h : rest = []
  · subst h
    rw [listText_singleton, listText_singleton]
  · rw [listText_cons h, listText_cons h, append_assoc]

section

variable {conventions : Conventions} {containerType : String}

theorem Slot.Declared.of_mem_factorySlots (hconventions : conventions.Writable)
    (htype : IsTypeOf paramModifiers (some containerType.toList)) :
    ∀ slot ∈ factorySlots conventions containerType, slot.Declared := by
  have hname : IsName "container".toList := by decide +kernel
  refine forall_mem_cons.mpr ⟨⟨hname, _, htype, by simp [declText]⟩, fun slot hslot => ?_⟩
  obtain ⟨param, hparam, rfl⟩ := mem_map.mp hslot
  exact (hconventions.leading param hparam).declared

theorem factorySlots_declarations (hconventions : conventions.Writable) (containerType : String) :
    (factorySlots conventions containerType).map (·.declaration) =
      (containerType ++ " $container") :: conventions.factoryParams := by
  rw [hconventions.factory]
  simp [factorySlots, LeadingParam.slot, Function.comp_def]

/-- The text of the parameters of a factory, which starts with the type of the container. -/
theorem listText_factory (hconventions : conventions.Writable) (containerType : String) :
    listText [' '] ((factorySlots conventions containerType).map (·.declaration.toList)) =
      containerType.toList ++ ' ' :: listText [' ']
        ("$container".toList :: conventions.factoryParams.map String.toList) := by
  have hmap : (factorySlots conventions containerType).map (·.declaration.toList) =
      ((factorySlots conventions containerType).map (·.declaration)).map String.toList := by
    rw [map_map]
    rfl
  rw [hmap, factorySlots_declarations hconventions, map_cons,
    show (containerType ++ " $container").toList = (containerType.toList ++ [' ']) ++ "$container".toList by simp,
    listText_append_cons]
  simp

/-- The text of a factory up to the parenthesis behind its parameters. -/
def factoryHead (indent : List Char) (conventions : Conventions) (containerType : String) : List Char :=
  indent ++ (factoryWords ++ (functionWord ++ createName)) ++ '(' ::
    (listText [' '] ((factorySlots conventions containerType).map (·.declaration.toList)) ++ [')'])

/-- The head of a factory is code on one line that fetches nothing. -/
theorem inline_factoryHead {indent : List Char} (hconventions : conventions.Writable)
    (htype : IsQualified containerType.toList) :
    ∃ code, factoryHead indent conventions containerType = indent ++ code ∧
      (∀ c ∈ code, IsInline c ∧ c ≠ '-') ∧ code.head? = some 'p' ∧ NoneBehindBlank 'n' code := by
  have hwords : ∀ c ∈ factoryWords ++ (functionWord ++ createName) ++ ['('], IsInline c ∧ c ≠ '-' := by
    decide +kernel
  have htypeChars : ∀ c ∈ containerType.toList, IsInline c ∧ c ≠ '-' := fun c hc =>
    ⟨(isFlat_of_isNameChar (htype.2 c hc)).isInline, by
      rintro rfl
      exact absurd (htype.2 _ hc) (by decide)⟩
  refine ⟨(factoryWords ++ (functionWord ++ createName) ++ ['(']) ++ (containerType.toList ++ (' ' ::
    (listText [' '] ("$container".toList :: conventions.factoryParams.map String.toList) ++ [')']))),
    ?_, ?_, rfl, ?_⟩
  · rw [factoryHead, listText_factory hconventions]
    simp
  · refine forall_mem_append.mpr ⟨hwords, forall_mem_append.mpr ⟨htypeChars, ?_⟩⟩
    refine forall_mem_cons.mpr ⟨by decide, forall_mem_append.mpr ⟨hconventions.inline, by decide⟩⟩
  · have hparams : NoneBehindBlank 'n' (' ' ::
        (listText [' '] ("$container".toList :: conventions.factoryParams.map String.toList) ++ [')'])) := by
      have hlist := hconventions.quiet.append (b := [')']) (by decide) (.inr (by decide))
      refine NoneBehindBlank.append (a := [' ']) (by decide) hlist (.inr ?_)
      rw [show "$container".toList = ['$'] ++ "container".toList by decide +kernel, listText_append_cons]
      simp
    have htyped : NoneBehindBlank 'n' containerType.toList :=
      .of_not_blank fun c hc => isBlank_of_isNameChar (htype.2 c hc)
    exact NoneBehindBlank.append (by decide +kernel) (htyped.append hparams (.inr (by simp)))
      (.inl (by simp; decide))

/-- A line of plain code without an arrow. -/
theorem isClosedLine_plain {indent code : List Char} (hindent : IsIndent indent)
    (h : ∀ c ∈ code, IsPlain c ∧ c ≠ '\n' ∧ c ≠ '-') :
    IsClosedLine (indent ++ code) ∧ '-' ∉ indent ++ code ∧
      (Line.ofCode (indent ++ code)).code = indent ++ code := by
  have hplain : ∀ c ∈ indent ++ code, IsPlain c :=
    forall_mem_append.mpr ⟨hindent.1.isPlain, fun c hc => (h c hc).1⟩
  refine ⟨.of_plain ?_ hplain, ?_, Line.code_ofCode hplain⟩
  · rw [mem_append]
    exact fun hmem => hmem.elim hindent.2.1 fun hmem => (h _ hmem).2.1 rfl
  · rw [mem_append]
    exact fun hmem => hmem.elim (hindent.1.not_mem (by decide)) fun hmem => (h _ hmem).2.2 rfl

/-- The signature of a new factory. -/
def factorySignature (style : CodeStyle) (conventions : Conventions) (containerType : String) : String :=
  style.memberIndent ++ "public static function create(" ++
    ", ".intercalate ((containerType ++ " $container") :: conventions.factoryParams) ++ ")"

/-- Its lines up to the brace. -/
def factoryOpening (style : CodeStyle) (conventions : Conventions) (containerType : String) : List String :=
  [factorySignature style conventions containerType ++ style.openBrace] ++
    if style.braceOnOwnLine then [style.memberIndent ++ "\x7b"] else []

/-- The lines of a factory up to its body. -/
theorem factoryHead_lines {style : CodeStyle} (hstyle : style.Writable)
    (hconventions : conventions.Writable) (htype : IsQualified containerType.toList) :
    ∃ heads brace after, IsGap after ∧
      pieces (factoryHead style.memberIndent.toList conventions containerType ++ (after ++ ['{'])) =
        heads ++ [brace] ∧
      joined ((factoryOpening style conventions containerType).map String.toList) =
        factoryHead style.memberIndent.toList conventions containerType ++ (after ++ ['{']) ∧
      (∀ line ∈ heads ++ [brace], IsClosedLine line ∧ '-' ∉ line) ∧
      NoneBehindBlank 'n' (Line.ofCode brace).code := by
  obtain ⟨code, hcode, hinline, hfirst, hquiet⟩ :=
    @inline_factoryHead conventions containerType style.memberIndent.toList hconventions htype
  have hindent : NoneBehindBlank 'n' style.memberIndent.toList :=
    .of_not_mem (hstyle.memberIndent.1.not_mem (by decide))
  have hsignature : (factorySignature style conventions containerType).toList =
      factoryHead style.memberIndent.toList conventions containerType := by
    rw [factorySignature, ← factorySlots_declarations hconventions, factoryHead, String.toList_append,
      String.toList_append, Render.toList_commas, map_map]
    simp [factoryWords, publicWord, functionWord, createName, Function.comp_def]
  have hplain : ∀ c ∈ code, IsPlain c ∧ c ≠ '\n' ∧ c ≠ '-' := fun c hc =>
    ⟨(hinline c hc).1.1, (hinline c hc).1.2.2.2.1, (hinline c hc).2⟩
  cases hown : style.braceOnOwnLine with
  | true =>
    obtain ⟨hclosed, harrow, -⟩ := isClosedLine_plain hstyle.memberIndent hplain
    obtain ⟨hclosed', harrow', hbrace⟩ :=
      @isClosedLine_plain style.memberIndent.toList ['{'] hstyle.memberIndent (by decide)
    refine ⟨[style.memberIndent.toList ++ code], style.memberIndent.toList ++ ['{'],
      '\n' :: style.memberIndent.toList, hstyle.isGap_memberIndent.feed, ?_, ?_, ?_, ?_⟩
    · rw [hcode, cons_append, pieces_append hclosed.1, pieces_of_not_mem hclosed'.1]
      rfl
    · rw [factoryOpening, if_pos hown, map_append, map_singleton, String.toList_append, hsignature,
        joined_append (by simp)]
      simp [CodeStyle.openBrace, hown]
    · simpa using ⟨⟨hclosed, by simpa using harrow⟩, hclosed', by simpa using harrow'⟩
    · rw [hbrace]
      exact hindent.append (by decide) (.inr (by decide))
  | false =>
    have hplain' : ∀ c ∈ code ++ [' ', '{'], IsPlain c ∧ c ≠ '\n' ∧ c ≠ '-' :=
      forall_mem_append.mpr ⟨hplain, by decide⟩
    obtain ⟨hclosed, harrow, hbrace⟩ := isClosedLine_plain hstyle.memberIndent hplain'
    refine ⟨[], style.memberIndent.toList ++ (code ++ [' ', '{']), [' '], by decide, ?_, ?_, ?_, ?_⟩
    · rw [hcode, append_assoc]
      exact pieces_of_not_mem hclosed.1
    · rw [factoryOpening, if_neg (by simp [hown]), append_nil, map_singleton, String.toList_append, hsignature]
      simp [CodeStyle.openBrace, hown]
    · simpa using ⟨hclosed, by simpa using harrow⟩
    · rw [hbrace]
      exact hindent.append (hquiet.append (by decide) (.inr (by decide))) (.inr (by simp [hfirst]))

end

/-! ### Arguments, one a line -/

/-- An argument that can be written on a line of its own. -/
structure Text.IsArgument (entry : List Char) : Prop where
  listable : Listable entry
  closed : ¬ EndsInComment entry
  line : IsLine entry

/-- What stands behind an entry on its line. -/
def Text.IsEntryTail (tail : List Char) : Prop := tail = [] ∨ tail = [',']

theorem Text.IsArgument.codeBlock {indent entry tail : List Char} (h : IsArgument entry)
    (hindent : IsIndent indent) (htail : IsEntryTail tail) :
    IsLine (indent ++ (entry ++ tail)) ∧ CodeBlock (indent ++ (entry ++ tail)) none := by
  have hend : ListEnd tail ∧ IsLine tail := by
    rcases htail with rfl | rfl
    · exact ⟨.inl nofun, by decide⟩
    · exact ⟨.inr ⟨[], nofun, rfl⟩, by decide⟩
  obtain ⟨-, hends, -, -, hcurly⟩ := @reads_listText [] tail indent none [entry] nofun hend.1
    (by simp [Lex.Inert]) (by simp) (by simpa using ⟨h.listable, h.closed⟩) hindent.1
  rw [listText_singleton] at hends hcurly
  refine ⟨⟨?_, ?_⟩, ⟨hends, hcurly⟩⟩
  · simp [hindent.2.1, h.line.1, hend.2.1]
  · simp [hindent.2.2, h.line.2, hend.2.2]

namespace Render

/-- A list with one entry a line: each line holds an entry and what stands behind it. -/
theorem forall₂_listLines (indent : String) (entries : List String) :
    List.Forall₂ (fun entry line => ∃ tail, IsEntryTail tail ∧
      line = indent.toList ++ (entry.toList ++ tail)) entries
        ((listLines indent false entries).map String.toList) := by
  induction entries with
  | nil => exact .nil
  | cons entry entries ih =>
    cases entries with
    | nil => exact .cons ⟨[], .inl rfl, by simp⟩ .nil
    | cons second entries => exact .cons ⟨[','], .inr rfl, by simp⟩ ih

theorem forall_mem_listLines {entries : List String} {P : List Char → Prop}
    (h : ∀ entry ∈ entries, ∀ tail, IsEntryTail tail → P (indent.toList ++ (entry.toList ++ tail))) :
    ∀ line ∈ (listLines indent false entries).map String.toList, P line := by
  have hlines := forall₂_listLines indent entries
  generalize (listLines indent false entries).map String.toList = ls at hlines
  induction hlines with
  | nil => exact nofun
  | cons hline _ ih =>
    obtain ⟨hentry, hentries⟩ := forall_mem_cons.mp h
    obtain ⟨tail, htail, rfl⟩ := hline
    exact forall_mem_cons.mpr ⟨hentry tail htail, ih hentries⟩

theorem flatMap_listLines {α : Type} {entries : List String} {f : List Char → List α}
    {g : String → List α} (h : ∀ entry ∈ entries, ∀ tail, IsEntryTail tail →
      f (indent.toList ++ (entry.toList ++ tail)) = g entry) :
    ((listLines indent false entries).map String.toList).flatMap f = entries.flatMap g := by
  have hlines := forall₂_listLines indent entries
  generalize (listLines indent false entries).map String.toList = ls at hlines
  induction hlines with
  | nil => rfl
  | cons hline _ ih =>
    obtain ⟨hentry, hentries⟩ := forall_mem_cons.mp h
    obtain ⟨tail, htail, rfl⟩ := hline
    rw [flatMap_cons, flatMap_cons, hentry tail htail, ih hentries]

end Render

/-- An argument and the service that is fetched on its line. -/
structure Fetches (entry : String) (serviceId : Option String) : Prop where
  argument : IsArgument entry.toList
  fetched : ∀ indent tail : List Char, Blank indent → IsEntryTail tail →
    fetchedOn "container" (Line.ofCode (indent ++ (entry.toList ++ tail))) = serviceId.toList
  reads : containerGetId entry = serviceId

theorem LeadingParam.Writable.fetches {param : LeadingParam} (h : param.Writable) :
    Fetches param.expression none := by
  have hname := h.declared.1
  have hflat : ∀ c ∈ param.expression.toList, IsFlat c := by
    rw [h.expression]
    exact isFlat_declText nofun hname
  have harrow : '-' ∉ param.expression.toList := by
    rw [h.expression]
    simp only [declText, mem_cons, not_or]
    refine ⟨by decide, fun hmem => ?_⟩
    exact absurd (hname.2 _ hmem) (by decide)
  have hlistable := @Listable.of_flat param.expression.toList
    (by rw [h.expression]; exact trim_declText nofun hname) (by simp [h.expression, declText]) hflat
  refine ⟨⟨hlistable.1, hlistable.2.1, ?_⟩, fun indent tail hindent htail => ?_, ?_⟩
  · exact ⟨fun hmem => (hflat _ hmem).line.1 rfl, fun hmem => (hflat _ hmem).line.2 rfl⟩
  · have htail' : '-' ∉ tail := by
      rcases htail with rfl | rfl <;> decide
    refine fetchedOn_eq_nil ?_
    rw [Line.raw_ofCode]
    simp [harrow, htail', hindent.not_mem (c := '-') (by decide)]
  · have hnone : containerGet (trim param.expression.toList) = none := by
      rw [hlistable.1.trimmed, Option.eq_none_iff_forall_ne_some]
      exact fun hit hread => harrow (of_containerGet hread)
    rw [containerGetId, hnone]

theorem Binding.Writable.fetches {binding : Binding} (h : binding.Writable) :
    Fetches (fetchExpression "container" binding.serviceId) (some binding.serviceId) := by
  have hcontainer : IsName "container".toList := by decide +kernel
  have hlistable := listable_fetchText hcontainer h.serviceId
  have hline : IsLine (fetchText "container".toList binding.serviceId.toList) := by
    have hid := h.serviceId.1
    constructor <;> simp [fetchText, hid.1, hid.2]
  refine ⟨?_, fun indent tail hindent htail => ?_, containerGetId_fetchExpression hcontainer h.serviceId⟩
  · rw [toList_fetchExpression]
    exact ⟨hlistable.1, hlistable.2, hline⟩
  · have htail' : '-' ∉ tail := by
      rcases htail with rfl | rfl <;> decide
    rw [toList_fetchExpression]
    have hfetched := fetchedOn_fetchText hcontainer h.serviceId hindent htail'
    rwa [String.ofList_toList, String.ofList_toList] at hfetched

/-- What a new factory passes on: the parameters of the role and the services. -/
def factoryArguments (conventions : Conventions) (bindings : List Binding) : List String :=
  conventions.leadingParams.map (·.expression) ++
    bindings.map (fetchExpression "container" ·.serviceId)

section

variable {conventions : Conventions} {bindings : List Binding}

theorem isArgument_factoryArguments (hconventions : conventions.Writable)
    (h : ∀ binding ∈ bindings, binding.Writable) :
    ∀ entry ∈ factoryArguments conventions bindings, IsArgument entry.toList := by
  refine forall_mem_append.mpr ⟨fun entry hentry => ?_, fun entry hentry => ?_⟩
  · obtain ⟨param, hparam, rfl⟩ := mem_map.mp hentry
    exact (hconventions.leading param hparam).fetches.argument
  · obtain ⟨binding, hbinding, rfl⟩ := mem_map.mp hentry
    exact (h binding hbinding).fetches.argument

/-- The services that are fetched on the lines of the arguments. -/
theorem fetched_factoryArguments (hconventions : conventions.Writable)
    (h : ∀ binding ∈ bindings, binding.Writable) (hindent : Blank indent.toList) :
    ((Render.listLines indent false (factoryArguments conventions bindings)).map String.toList).flatMap
        (fun line => fetchedOn "container" (Line.ofCode line)) = bindings.map (·.serviceId) := by
  have hfetched : ∀ entry ∈ factoryArguments conventions bindings, ∀ tail, IsEntryTail tail →
      fetchedOn "container" (Line.ofCode (indent.toList ++ (entry.toList ++ tail))) =
        (containerGetId entry).toList := by
    refine forall_mem_append.mpr ⟨fun entry hentry tail htail => ?_, fun entry hentry tail htail => ?_⟩
    · obtain ⟨param, hparam, rfl⟩ := mem_map.mp hentry
      have hfetches := (hconventions.leading param hparam).fetches
      rw [hfetches.fetched _ _ hindent htail, hfetches.reads]
    · obtain ⟨binding, hbinding, rfl⟩ := mem_map.mp hentry
      have hfetches := (h binding hbinding).fetches
      rw [hfetches.fetched _ _ hindent htail, hfetches.reads]
  rw [Render.flatMap_listLines hfetched, factoryArguments, flatMap_append, flatMap_map,
    flatMap_map]
  have hleading : conventions.leadingParams.flatMap
      (fun param => (containerGetId param.expression).toList) = [] := by
    refine flatMap_eq_nil_iff.mpr fun param hparam => ?_
    rw [(hconventions.leading param hparam).fetches.reads]
    rfl
  have hservices : bindings.flatMap
      (fun binding => (containerGetId (fetchExpression "container" binding.serviceId)).toList) =
        bindings.flatMap (fun binding => [binding.serviceId]) :=
    flatMap_congr fun binding hbinding => by
      rw [(h binding hbinding).fetches.reads]
      rfl
  rw [hleading, hservices, nil_append, map_eq_flatMap]

end

/-! ### Factories -/

namespace Render

variable {style : CodeStyle} {conventions : Conventions} {bindings : List Binding}
  {containerType : String}

/-- The lines behind the one that returns the new object. -/
def argumentLines (style : CodeStyle) (arguments : List String) : List (List Char) :=
  (listLines (style.bodyIndent ++ style.unit) false arguments).map String.toList ++
    [style.bodyIndent.toList ++ [')', ';']]

theorem toList_returnNew (hne : arguments ≠ []) :
    (Render.returnNew style.bodyIndent style.unit "static" arguments false).toList =
      joined ((style.bodyIndent.toList ++ returnText "static") :: argumentLines style arguments) := by
  rw [Render.returnNew, if_neg (by simpa using hne), toList_joinLines]
  simp [argumentLines, returnText]

/-- The lines of the body of a new factory are closed code. -/
theorem codeBlock_argumentLines (hstyle : style.Writable)
    (h : ∀ entry ∈ arguments, IsArgument entry.toList) :
    ∀ line ∈ (style.bodyIndent.toList ++ returnText "static") :: argumentLines style arguments,
      IsLine line ∧ CodeBlock line none := by
  have hindent := hstyle.bodyIndent
  refine forall_mem_cons.mpr ⟨codeBlock_inline hindent (by decide),
    forall_mem_append.mpr ⟨forall_mem_listLines fun entry hentry tail htail => ?_, ?_⟩⟩
  · exact (h entry hentry).codeBlock hstyle.argumentIndent htail
  · intro line hmem
    rw [mem_singleton.mp hmem]
    exact codeBlock_inline hindent (by decide)

/-- The services that are fetched on the lines of a new factory. -/
theorem fetched_factoryLines (hstyle : style.Writable) (hconventions : conventions.Writable)
    (h : ∀ binding ∈ bindings, binding.Writable) {brace : List Char} (hbrace : '-' ∉ brace) :
    (brace :: (((style.bodyIndent.toList ++ returnText "static") ::
        argumentLines style (factoryArguments conventions bindings)) ++
          [style.memberIndent.toList ++ ['}']])).flatMap
        (fun line => fetchedOn "container" (Line.ofCode line)) = bindings.map (·.serviceId) := by
  have hnone : ∀ {line : List Char}, '-' ∉ line → fetchedOn "container" (Line.ofCode line) = [] :=
    fun hline => fetchedOn_eq_nil (by rwa [Line.raw_ofCode])
  have hbody : '-' ∉ style.bodyIndent.toList := hstyle.bodyIndent.1.not_mem (by decide)
  have hmember : '-' ∉ style.memberIndent.toList := hstyle.memberIndent.1.not_mem (by decide)
  have hreturn : '-' ∉ style.bodyIndent.toList ++ returnText "static" := fun hmem =>
    (mem_append.mp hmem).elim hbody (by decide)
  have hparen : '-' ∉ style.bodyIndent.toList ++ [')', ';'] := by simp [hbody]
  have hclose : '-' ∉ style.memberIndent.toList ++ ['}'] := by simp [hmember]
  have hfetched := fetched_factoryArguments hconventions h hstyle.argumentIndent.1
  simp only [argumentLines, flatMap_cons, flatMap_append, cons_append, flatMap_nil,
    hnone hbrace, hnone hreturn, hnone hparen, hnone hclose, hfetched, nil_append, append_nil]

/-- The text between the parentheses behind `new static`. -/
def argumentText (style : CodeStyle) (arguments : List String) : List Char :=
  '\n' :: (style.bodyIndent ++ style.unit).toList ++
    (listText ('\n' :: (style.bodyIndent ++ style.unit).toList) (arguments.map String.toList) ++
      '\n' :: style.bodyIndent.toList)

theorem joined_argumentLines (hne : arguments ≠ []) (last : List Char) :
    '\n' :: joined (argumentLines style arguments ++ [last]) =
      argumentText style arguments ++ ')' :: ';' :: '\n' :: last := by
  have hlines := listLines_ne_nil hne (style.bodyIndent ++ style.unit) false
  rw [argumentLines, joined_append (by simp), joined_singleton, unlines_append,
    unlines_eq_joined (by simpa using hlines), joined_listLines hne]
  simp [argumentText]

/-- The arguments are read back from the text between the parentheses. -/
theorem reads_argumentText (hstyle : style.Writable) (hne : arguments ≠ [])
    (h : ∀ entry ∈ arguments, IsArgument entry.toList) :
    ((EntryList.ofCells (Lex.code.cells (argumentText style arguments) (some ')'))).entries.map
        (String.ofList ·.text)) = arguments ∧
      Lex.code.after (argumentText style arguments) (some ')') = .code ∧
      NestedIn '(' ')' 0 (Lex.code.cells (argumentText style arguments) (some ')')).code = true := by
  have hdeeper : Blank ('\n' :: (style.bodyIndent ++ style.unit).toList) :=
    forall_mem_cons.mpr ⟨by decide, hstyle.argumentIndent.1⟩
  have htail : Blank ('\n' :: style.bodyIndent.toList) :=
    forall_mem_cons.mpr ⟨by decide, hstyle.bodyIndent.1⟩
  have hentries : ∀ entry ∈ arguments.map String.toList, Listable entry ∧ ¬ EndsInComment entry := by
    intro entry hentry
    obtain ⟨text, htext, rfl⟩ := mem_map.mp hentry
    exact ⟨(h text htext).listable, (h text htext).closed⟩
  obtain ⟨hread, hends, hround, -, -⟩ := @reads_listText _ _ _ (some ')') (arguments.map String.toList)
    hdeeper (.inl htail) (by simp [Lex.Inert]) (by simpa using hne) hentries hdeeper
  refine ⟨?_, hends, hround⟩
  rw [argumentText, hread, map_map, map_map]
  simp [Entry.ofText, Function.comp_def]

/-- The comment in front of a new factory, without the lines that open and close it. -/
def factoryDoc (style : CodeStyle) : List String := [style.memberIndent ++ " * \x7b@inheritdoc\x7d"]

theorem isDoc_factoryDoc (hstyle : style.Writable) : ∀ line ∈ factoryDoc style, IsDoc line := by
  intro line hline
  rw [mem_singleton.mp hline]
  exact hstyle.isDoc.append (by decide) (.inr (by decide))

theorem containerVarOf_factory (hconventions : conventions.Writable)
    (htype : IsTypeOf paramModifiers (some containerType.toList)) {list : EntryList}
    (h : list.entries = ((factorySlots conventions containerType).map (·.declaration.toList)).map
      Entry.ofText) : containerVarOf list = "container" := by
  obtain ⟨hcontainer, -⟩ := forall_mem_cons.mp
    (Slot.Declared.of_mem_factorySlots hconventions htype)
  obtain ⟨param, hparam, hname, -⟩ := hcontainer.param
  rw [containerVarOf, h, factorySlots, map_cons, map_cons, hcontainer.listable.2.2.1]
  simp only [hparam, hname]

/-- The parameters and lines of a new factory, where `after` stands in front of the brace. -/
def factoryLists (style : CodeStyle) (conventions : Conventions) (containerType : String)
    (arguments : List String) (after : List Char) : WrittenMethod.Lists where
  front := style.memberIndent.toList ++ (factoryWords ++ (functionWord ++ createName))
  lead := []
  gap := [' ']
  tail := []
  after := after
  close := style.memberIndent.toList
  entries := (factorySlots conventions containerType).map (·.declaration.toList)
  lines := (style.bodyIndent.toList ++ returnText "static") :: argumentLines style arguments

theorem writable_factoryLists (hstyle : style.Writable) (hconventions : conventions.Writable)
    (htype : IsTypeOf paramModifiers (some containerType.toList))
    (h : ∀ entry ∈ arguments, IsArgument entry.toList) {after : List Char} (hafter : IsGap after) :
    (factoryLists style conventions containerType arguments after).Writable
      ⟨factoryWords, String.ofList createName,
        (style.memberIndent.toList ++ (factoryWords ++ (functionWord ++ createName))).length⟩ where
  starts := startsMethod_create hstyle.memberIndent.1 hstyle.memberIndent.2.1
  no_return := by
    have hwords : '\r' ∉ factoryWords ++ (functionWord ++ createName) := by decide
    exact fun hmem => (mem_append.mp hmem).elim hstyle.memberIndent.2.2 hwords
  gaps := ⟨show IsGap [] by decide, show IsGap [' '] by decide, show IsGap [] by decide, hafter⟩
  close := hstyle.memberIndent
  ne_nil := cons_ne_nil _ _
  entries := fun entry hentry => by
    obtain ⟨slot, hslot, rfl⟩ := mem_map.mp hentry
    obtain ⟨hlistable, hends, -, hreturn⟩ :=
      (Slot.Declared.of_mem_factorySlots hconventions htype slot hslot).listable
    exact ⟨hlistable, hends, hreturn⟩
  lines := codeBlock_argumentLines hstyle h

theorem opening_factoryLists (arguments : List String) (after : List Char) :
    (WrittenMethod.ofLists (factoryLists style conventions containerType arguments after)).opening =
      factoryHead style.memberIndent.toList conventions containerType ++ (after ++ ['{']) := by
  simp [WrittenMethod.opening, WrittenMethod.ofLists, factoryLists, factoryHead]

/-- The text of a new factory: its comment and then its signature and lines. -/
theorem toList_freshFactory (hne : arguments ≠ []) {after : List Char}
    (hjoined : joined ((factoryOpening style conventions containerType).map String.toList) =
      factoryHead style.memberIndent.toList conventions containerType ++ (after ++ ['{'])) :
    (freshFactory style conventions containerType arguments).toList =
      joined (((style.memberIndent ++ "/**") :: (factoryDoc style ++
        [style.memberIndent ++ " */"])).map String.toList) ++
        '\n' :: (WrittenMethod.ofLists
          (factoryLists style conventions containerType arguments after)).text := by
  have hlines : freshFactory style conventions containerType arguments = joinLines (
      ((style.memberIndent ++ "/**") :: (factoryDoc style ++ [style.memberIndent ++ " */"])) ++
      (factoryOpening style conventions containerType ++
        [Render.returnNew style.bodyIndent style.unit "static" arguments false,
          style.memberIndent ++ "\x7d"])) := by
    simp only [freshFactory, factoryDoc, factoryOpening, factorySignature, cons_append, nil_append]
  have hbody : joined ([Render.returnNew style.bodyIndent style.unit "static" arguments false,
        style.memberIndent ++ "\x7d"].map String.toList) =
      joined (((style.bodyIndent.toList ++ returnText "static") :: argumentLines style arguments) ++
        [style.memberIndent.toList ++ ['}']]) := by
    rw [joined_append (by simp), unlines_eq_joined (by simp), ← toList_returnNew hne]
    simp [joined_cons]
  rw [hlines, toList_joinLines, map_append, joined_append (by simp), unlines_eq_joined (by simp),
    map_append, joined_append (by simp), unlines_eq_joined (by simp [factoryOpening]), hjoined, hbody,
    WrittenMethod.Lists.text_eq]
  simp [factoryLists, factoryHead]

end Render

/-- What a written factory adds. -/
theorem WrittenMethod.Sound.added_factory {method : WrittenMethod} {head : MethodHead}
    (h : method.Sound head) (hname : sameName head.name "__construct" = false)
    (hfactory : head.isFactory = true) :
    h.added.fields = [] ∧ h.added.constructor = none ∧
      h.added.factory = some (Factory.ofLayout (.written method.lines) h.layout none) := by
  have hkind : (head.name == "create" && head.isStatic) = true := hfactory
  rw [WrittenMethod.Sound.added, MemberScan.addMethod]
  dsimp only
  rw [if_neg (by simp [hname]), if_pos hkind]
  exact ⟨rfl, rfl, rfl⟩

namespace Render

variable {style : CodeStyle} {conventions : Conventions} {bindings : List Binding}
  {containerType : String}

/-- **New factories are read.** The services are fetched in order, and the arguments are
passed on as they were written. -/
theorem freshFactory_declares (hstyle : style.Writable) (hconventions : conventions.Writable)
    (htype : IsTypeOf paramModifiers (some containerType.toList))
    (h : ∀ binding ∈ bindings, binding.Writable) (hne : bindings ≠ []) :
    ∃ added factory, DeclaresText (freshFactory style conventions containerType
        (factoryArguments conventions bindings)) added ∧
      added.fields = [] ∧ added.constructor = none ∧ added.factory = some factory ∧
      factory.serviceIds = bindings.map (·.serviceId) ∧
      ∃ trailing first last, factory.openBraceLine < first ∧ factory.shape =
        .newStatic "static" (factoryArguments conventions bindings) trailing first last := by
  have harguments := isArgument_factoryArguments hconventions h
  have hargumentsNe : factoryArguments conventions bindings ≠ [] := by
    simp [factoryArguments, hne]
  obtain ⟨heads, brace, after, hafter, hpieces, hjoined, hclosed, hquiet⟩ :=
    factoryHead_lines hstyle hconventions (htype _ rfl).1
  have hwritable := writable_factoryLists hstyle hconventions htype harguments hafter
  have hsound := hwritable.sound
  have hdoc := isDoc_factoryDoc hstyle
  obtain ⟨hread, hends, hround⟩ := reads_argumentText hstyle hargumentsNe harguments
  have hopening := (@opening_factoryLists style conventions containerType
    (factoryArguments conventions bindings) after).symm ▸ hpieces
  obtain ⟨hcloseLine, harrow, -⟩ := @isClosedLine_plain style.memberIndent.toList ['}']
    hstyle.memberIndent (by decide)
  have hlines : ∀ line ∈ (heads ++ [brace]) ++ (((style.bodyIndent.toList ++ returnText "static") ::
      argumentLines style (factoryArguments conventions bindings)) ++
        [style.memberIndent.toList ++ ['}']]), IsClosedLine line := by
    refine forall_mem_append.mpr ⟨fun line hmem => (hclosed line hmem).1,
      forall_mem_append.mpr ⟨fun line hmem => ?_, by simpa using hcloseLine⟩⟩
    obtain ⟨hfeed, hblock⟩ := codeBlock_argumentLines hstyle harguments line hmem
    exact ⟨hfeed.1, hblock.ends⟩
  obtain ⟨hreturns, -, hids, trailing, first, last, hbelow, hshape⟩ := hsound.factory_ofLayout hopening rfl
    hlines hstyle.memberIndent.2.1 hquiet hstyle.bodyIndent.1 (joined_argumentLines hargumentsNe _) hends hround
  rw [containerVarOf_factory hconventions htype hwritable.reads.1] at hids
  have hdeclares := DeclaresText.of_method (isComment_doc hstyle.memberIndent.1 hstyle.isDoc hdoc)
    (no_return_doc hstyle hdoc) hsound (by rw [hreturns, Bool.or_true])
    (toList_freshFactory hargumentsNe hjoined) hwritable.no_return_text
  obtain ⟨hfields, hctor, hadded⟩ := hsound.added_factory
    (show sameName (String.ofList createName) "__construct" = false by decide +kernel)
    (show (String.ofList createName == "create" && containsText "static" factoryWords) = true by
      decide +kernel)
  refine ⟨_, _, hdeclares, ?_, ?_, Members.factory_moved hadded _, ?_, ?_⟩
  · rw [Members.moved, hfields]
    rfl
  · rw [Members.moved, hctor]
    rfl
  · show (Factory.ofLayout _ _ none).serviceIds = _
    rw [hids]
    exact fetched_factoryLines hstyle hconventions h (hclosed brace (by simp)).2
  · rw [hread] at hshape
    exact ⟨trailing, _, _, Nat.add_lt_add_left hbelow _, congrArg (FactoryShape.moved _) hshape⟩

end Render

end ServiceInjection
