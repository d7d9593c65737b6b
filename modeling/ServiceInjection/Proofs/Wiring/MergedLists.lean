import ServiceInjection.Proofs.Outline.Sourced
import ServiceInjection.Proofs.Source.Extension
import ServiceInjection.Proofs.Wiring.Rendered

/-!
# Wiring.MergedLists

The lists of wiring methods that are extended. What is read from a list between brackets
of the source depends on the text between them alone (`Source.Encloses.cells`). The old
entries are copied as they stand in the source, comments included, and laid out anew with
the new entries behind them. The analysis then reads the old parameters and the new ones
exactly if no old entry ends in a line comment (`Constructor.ReadsMerged.order_iff`), and
likewise for the arguments (`ReadsArguments.order_iff`).
-/

namespace ServiceInjection

open Text

variable {source : Source} {layout : MethodLayout}

/-! ### Lists between brackets -/

namespace Source

/-- Whether the parentheses at two places enclose the given text. -/
structure Encloses (source : Source) (opening closing : Spot) (list : List Char) : Prop where
  holds : source.Holds opening '('
  closes : source.matchingClose opening '(' ')' = some closing
  text : (source.between opening closing).raw = list

namespace Encloses

variable {text : String} {opening closing : Spot} {list : List Char}

/-- The cells between two brackets are those of the text on its own, which ends in
code. -/
theorem cells (h : (ofText text).Encloses opening closing list) :
    (ofText text).between opening closing = Lex.code.cells list (some ')') ∧
      Lex.code.after list (some ')') = .code := by
  obtain ⟨hvalid, rest, hrest⟩ := h.holds.rest (by decide)
  obtain ⟨inner, back, rfl, -, rfl⟩ :=
    (matchingClose_eq_some_iff hvalid hrest (by decide)).mp h.closes
  obtain ⟨state, hstate, hcells⟩ := rest_ofText text opening
  rw [hrest] at hcells
  -- The opening bracket is shown, so the list starts in code, and so does the closing one.
  obtain ⟨-, -, hinner⟩ := @Lex.of_shown_cell _ _ _ [] _ _ hstate hcells.symm (by decide)
    (by simp [IsQuote])
  obtain ⟨hlist, hends, -⟩ := Lex.of_shown_cell (show Lex.code.Valid from trivial) hinner.symm
    (by decide) (by simp [IsQuote])
  have hbetween := @between_advance (ofText text) opening hvalid 0 [] inner (.show ')' :: back) _
    hrest rfl (by decide)
  rw [advance_zero hvalid, Nat.zero_add, Nat.add_comm 1] at hbetween
  have htext := h.text
  rw [hbetween] at htext ⊢
  exact htext ▸ ⟨hlist, hends⟩

theorem closed (h : (ofText text).Encloses opening closing list) :
    Line.Closed ((ofText text).between opening closing) := by
  obtain ⟨hcells, hends⟩ := h.cells
  refine .of_inert (by simp [Lex.Inert] : Lex.Inert (some ')')) ?_ ?_
  · rw [h.text, hcells]
  · rw [h.text, hends]

end Encloses

end Source

/-! ### The lists of the wiring methods -/

/-- A line holds no line end, and no carriage return either if the text has none. -/
theorem Source.isLine_raw (text : String) (n : Nat) :
    '\n' ∉ (ofText text).raw n ∧ ('\r' ∉ text.toList → IsLine ((ofText text).raw n)) := by
  rw [Source.raw, Source.line, List.getD_eq_getElem?_getD]
  cases hget : (ofText text).lines[n]? with
  | none => exact ⟨List.not_mem_nil, fun _ => ⟨List.not_mem_nil, List.not_mem_nil⟩⟩
  | some line =>
    have hmem : line.raw ∈ Text.lines text.toList := by
      rw [← raw_maskLines .code (Text.lines text.toList)]
      exact List.mem_map_of_mem (List.mem_of_getElem? hget)
    exact ⟨not_mem_of_mem_lines hmem, fun hreturn =>
      ⟨not_mem_of_mem_lines hmem, fun hc => hreturn (of_mem_lines hmem _ hc).1⟩⟩

/-- The cells between two places of one line hold no line end. -/
theorem Source.not_mem_between {text : String} {opening closing : Spot}
    (h : opening.line = closing.line) : '\n' ∉ ((ofText text).between opening closing).raw := by
  have hline := (isLine_raw text opening.line).1
  intro hmem
  rw [between, slice, if_pos (by simpa [Spot.next] using h)] at hmem
  obtain ⟨cell, hcell, heq⟩ := List.mem_map.mp hmem
  exact hline (List.mem_map.mpr ⟨cell, List.mem_of_mem_take (List.mem_of_mem_drop hcell), heq⟩)

/-- Whether a factory returns a new object whose arguments stand between the parentheses at
two places. -/
structure Factory.Returns (source : Source) (factory : Factory) (keyword : String)
    (opening closing : Spot) : Prop where
  holds : source.Holds opening '('
  closes : source.matchingClose opening '(' ')' = some closing
  shape : ∃ comma, factory.shape = .newStatic keyword
    ((source.entriesBetween opening closing).entries.map (String.ofList ·.text)) comma
    opening.line closing.line

/-- The arguments of a return statement stand between brackets. -/
theorem Factory.returns_ofLayout {doc : Option LineSpan} {keyword : String}
    {arguments : List String} {comma : Bool} {returnLine returnEndLine : Nat}
    (h : (Factory.ofLayout source layout doc).shape =
      .newStatic keyword arguments comma returnLine returnEndLine) :
    ∃ opening closing, (Factory.ofLayout source layout doc).Returns source keyword opening closing := by
  have hshape := h
  simp only [Factory.ofLayout, FactoryShape.ofBody] at h
  split at h
  · rename_i n m hfirst
    split at h
    · cases h
    · rename_i close hclose
      injection h with _ harguments _ hline hend
      obtain ⟨k, hstop, hholds⟩ := firstLine_returnNew hfirst
      rw [hstop, Nat.add_sub_cancel] at hclose harguments
      exact ⟨_, close, hholds, hclose, comma, by rw [hshape, ← harguments, ← hline, ← hend]⟩
  · split at h
    · cases h
    · rcases of_instanceShape with hshape | ⟨_, _, _, hshape⟩ <;> rw [hshape] at h <;> cases h

open List

/-! ### Old entries -/

namespace Source.Encloses

variable {text : String} {opening closing : Spot} {list : List Char}

/-- The entries of a list can be written to another list. -/
theorem isEntry (h : (ofText text).Encloses opening closing list) {entry : Entry}
    (hentry : entry ∈ ((ofText text).entriesBetween opening closing).entries) :
    IsEntry entry.text ∧ entry = Entry.ofText entry.text :=
  IsEntry.of_mem_entries h.closed hentry

/-- No entry of a list on one line ends in a line comment. -/
theorem not_endsInComment (h : (ofText text).Encloses opening closing list)
    (hline : opening.line = closing.line) {entry : Entry}
    (hentry : entry ∈ ((ofText text).entriesBetween opening closing).entries) :
    ¬ EndsInComment entry.text := by
  obtain ⟨piece, hpiece, rfl⟩ := mem_map.mp (mem_filter.mp hentry).1
  refine (closed_of_mem_splitCommas h.closed hpiece).not_endsInComment fun hmem =>
    @not_mem_between text _ _ hline ?_
  obtain ⟨cell, hcell, heq⟩ := mem_map.mp hmem
  exact mem_map.mpr ⟨cell, subset_of_mem_splitCommasAt hpiece hcell, heq⟩

end Source.Encloses

section

variable {text : String}

/-- The parameters of a constructor are entries of a list. None on one line ends in a line
comment. -/
theorem Constructor.ReadFrom.entry {ctor : Constructor}
    (h : ctor.ReadFrom (Source.ofText text) layout) {param : Param} (hparam : param ∈ ctor.params) :
    IsEntry param.text.toList ∧
      Param.of? param.text.toList (Entry.ofText param.text.toList).masked = some param ∧
      (EndsInComment param.text.toList → ctor.multilineParams = true) := by
  have hencloses : (Source.ofText text).Encloses layout.paramsOpen layout.paramsClose _ :=
    ⟨h.starts.paramsOpen, h.starts.paramsClose, rfl⟩
  have hlines : ctor.multilineParams = (layout.paramsOpen.line != layout.paramsClose.line) :=
    congrArg (·.multilineParams) h.eq
  rw [show ctor.params = _ from congrArg (·.params) h.eq] at hparam
  obtain ⟨entry, hentry, hsome⟩ := mem_filterMap.mp hparam
  obtain ⟨hisEntry, heq⟩ := hencloses.isEntry hentry
  rw [Param.text_of? hsome, String.toList_ofList, ← heq, hlines, bne_iff_ne]
  exact ⟨hisEntry, hsome, fun hends hline => hencloses.not_endsInComment hline hentry hends⟩

/-- The arguments of a factory are entries of a list. -/
theorem Factory.ReadFrom.isEntry {factory : Factory}
    (h : factory.ReadFrom (Source.ofText text) layout) {argument : String}
    (hargument : argument ∈ factory.arguments) : IsEntry argument.toList := by
  cases hshape : factory.shape with
  | newStatic keyword arguments comma returnLine returnEndLine =>
    obtain ⟨opening, closing, hreturns⟩ := returns_ofLayout (h.eq ▸ hshape)
    obtain ⟨comma', hread⟩ := hreturns.shape
    rw [← h.eq] at hread
    rw [Factory.arguments, hread] at hargument
    obtain ⟨entry, hentry, rfl⟩ := mem_map.mp hargument
    rw [String.toList_ofList]
    exact (Source.Encloses.isEntry ⟨hreturns.holds, hreturns.closes, rfl⟩ hentry).1
  | instanceAssign | unrecognized =>
    rw [Factory.arguments, hshape] at hargument
    cases hargument

end

/-! ### Lists that are laid out -/

/-- Whether a text lays entries out as a list, with blanks around them and `gap` behind each
comma. -/
def LaysOut (gap : List Char) (entries : List (List Char)) (list : List Char) : Prop :=
  ∃ lead tail, Blank lead ∧ Blank gap ∧ ListEnd tail ∧ list = lead ++ (listText gap entries ++ tail)

namespace LaysOut

variable {gap list : List Char} {old new : List (List Char)}

/-- The entries are read in their order, if none of the old ones ends in a line comment. -/
theorem entries_eq (h : LaysOut gap (old ++ new) list) (hold : ∀ entry ∈ old, Listable entry)
    (hclosed : ∀ entry ∈ old, ¬ EndsInComment entry) (hne : new ≠ [])
    (hnew : ∀ entry ∈ new, Listable entry ∧ ¬ EndsInComment entry) :
    (EntryList.ofCells (Lex.code.cells list (some ')'))).entries = (old ++ new).map Entry.ofText := by
  obtain ⟨lead, tail, hlead, hgap, htail, rfl⟩ := h
  have hall : ∀ entry ∈ old ++ new, Listable entry ∧ ¬ EndsInComment entry :=
    forall_mem_append.mpr ⟨fun entry hentry => ⟨hold entry hentry, hclosed entry hentry⟩, hnew⟩
  exact (reads_listText hgap htail (by simp [Lex.Inert]) (by simp [hne]) hall hlead).1

/-- The list is read up to the parenthesis that closes it, whether or not a comma ends each entry: the
comment behind an entry ends with its line. If there is one, fewer entries are read than were
written. -/
theorem reads (h : LaysOut gap (old ++ new) list) (hold : ∀ entry ∈ old, Listable entry)
    (hbreak : ∀ entry ∈ old, EndsInComment entry → '\n' ∈ gap) (hne : new ≠ [])
    (hnew : ∀ entry ∈ new, Listable entry ∧ ¬ EndsInComment entry) :
    (Lex.code.after list (some ')') = .code ∧ Nested (Lex.code.cells list (some ')')).code) ∧
      ((¬ ∀ entry ∈ old, ¬ EndsInComment entry) →
        (EntryList.ofCells (Lex.code.cells list (some ')'))).entries.length <
          old.length + new.length) := by
  obtain ⟨lead, tail, hlead, hgap, htail, rfl⟩ := h
  obtain ⟨hreads, -, hlt⟩ := @reads_commented gap tail lead (some ')') (old ++ new) hgap htail
    (by simp [Lex.Inert]) (by simp [hne])
    (forall_mem_append.mpr ⟨hold, fun entry hentry => (hnew entry hentry).1⟩)
    (forall_mem_append.mpr ⟨hbreak, fun entry hentry hends => absurd hends (hnew entry hentry).2⟩)
    (fun entry hentry => (hnew entry (by
      rw [getLast?_append_of_ne_nil _ hne] at hentry
      exact mem_of_getLast? hentry)).2) hlead.leadsIn
  refine ⟨hreads, fun hcomment => length_append ▸ hlt ?_⟩
  obtain ⟨entry, hentry, hends⟩ : ∃ entry ∈ old, EndsInComment entry := by simpa using hcomment
  exact ⟨entry, mem_append_left _ hentry, hends⟩

end LaysOut

/-! ### Arguments -/

/-- Whether arguments are read from a list that lays entries out one a line. -/
def ReadsArguments (entries arguments : List String) : Prop :=
  ∃ gap list, LaysOut gap (entries.map String.toList) list ∧ '\n' ∈ gap ∧
    arguments = (EntryList.ofCells (Lex.code.cells list (some ')'))).entries.map (String.ofList ·.text)

/-- The arguments that are read from an extended list. -/
theorem ReadsArguments.order_iff {old new arguments : List String}
    (hold : ∀ argument ∈ old, Listable argument.toList) (hne : new ≠ [])
    (hnew : ∀ argument ∈ new, Listable argument.toList ∧ ¬ EndsInComment argument.toList)
    (h : ReadsArguments (old ++ new) arguments) :
    arguments = old ++ new ↔ ∀ argument ∈ old, ¬ EndsInComment argument.toList := by
  obtain ⟨gap, list, hlays, hbreak, harguments⟩ := h
  rw [map_append] at hlays
  have hold' : ∀ entry ∈ old.map String.toList, Listable entry := by simpa using hold
  have hnew' : ∀ entry ∈ new.map String.toList, Listable entry ∧ ¬ EndsInComment entry := by
    simpa using hnew
  have hne' : new.map String.toList ≠ [] := by simpa using hne
  constructor
  · intro horder
    refine Classical.byContradiction fun hcomment => ?_
    have hlt := (hlays.reads hold' (fun _ _ _ => hbreak) hne' hnew').2 (by simpa using hcomment)
    have hlength := congrArg length (harguments.symm.trans horder)
    simp only [length_map, length_append] at hlt hlength
    omega
  · intro hclosed
    have hread := hlays.entries_eq hold' (by simpa using hclosed) hne' hnew'
    rw [harguments, hread, ← map_append, map_map, map_map]
    calc (old ++ new).map _ = (old ++ new).map id :=
          map_congr_left fun argument _ => String.ofList_toList
      _ = old ++ new := map_id _

/-! ### Parameters -/

/-- A new service that can be written: its parameter and its argument are entries of their own
that end in code, and a property that is declared for it has a name and a type. -/
structure Binding.Inscribed (containerVar : String) (binding : Binding) : Prop where
  declaration : Listable binding.declaration.toList ∧ ¬ EndsInComment binding.declaration.toList
  param : (Param.of? binding.declaration.toList (Entry.ofText binding.declaration.toList).masked).map
    (·.name) = some binding.param
  argument : Listable (fetchExpression containerVar binding.serviceId).toList ∧
    ¬ EndsInComment (fetchExpression containerVar binding.serviceId).toList
  writable : binding.promoted = false → binding.Writable

/-- Whether parameters are read from a list that lays the parameters of a constructor and new
ones out, on several lines if the old ones stand there. -/
def Constructor.ReadsMerged (ctor : Constructor) (bindings : List Binding) (params : List Param) :
    Prop :=
  ∃ gap list, LaysOut gap ((Render.mergedParams ctor bindings).map String.toList) list ∧
    (ctor.multilineParams = true → '\n' ∈ gap) ∧
    params = (EntryList.ofCells (Lex.code.cells list (some ')'))).entries.filterMap
      fun entry => Param.of? entry.text entry.masked

theorem names_of_texts {α : Type} {l : List α} {cs : α → List Char} {name : α → String}
    (h : ∀ a ∈ l, (Param.of? (cs a) (Entry.ofText (cs a)).masked).map (·.name) = some (name a)) :
    (((l.map cs).map Entry.ofText).filterMap
      (fun entry => Param.of? entry.text entry.masked)).map (·.name) = l.map name := by
  rw [map_filterMap, map_map, filterMap_map, ← filterMap_eq_map]
  exact filterMap_congr h

/-- The parameters that are read from an extended list. -/
theorem Constructor.ReadsMerged.order_iff {ctor : Constructor} {bindings : List Binding}
    {params : List Param} {containerVar : String} (hold : ∀ param ∈ ctor.params,
      Listable param.text.toList ∧
      Param.of? param.text.toList (Entry.ofText param.text.toList).masked = some param)
    (hline : ∀ param ∈ ctor.params, EndsInComment param.text.toList → ctor.multilineParams = true)
    (hne : bindings ≠ []) (hbindings : ∀ binding ∈ bindings, binding.Inscribed containerVar)
    (h : ctor.ReadsMerged bindings params) :
    params.map (·.name) = ctor.params.map (·.name) ++ bindings.map (·.param) ↔
      ∀ param ∈ ctor.params, ¬ EndsInComment param.text.toList := by
  obtain ⟨gap, list, hlays, hbreak, hparams⟩ := h
  rw [Render.mergedParams, map_append, map_map, map_map] at hlays
  have hold' : ∀ entry ∈ ctor.params.map (String.toList ∘ (·.text)), Listable entry := by
    simpa using fun param hparam => (hold param hparam).1
  have hnew : ∀ entry ∈ bindings.map (String.toList ∘ (·.declaration)),
      Listable entry ∧ ¬ EndsInComment entry := by
    simpa using fun binding hbinding => (hbindings binding hbinding).declaration
  have hne' : bindings.map (String.toList ∘ (·.declaration)) ≠ [] := by simpa using hne
  constructor
  · intro horder
    refine Classical.byContradiction fun hcomment => ?_
    have hlt := (hlays.reads hold'
      (by simpa using fun param hparam hends => hbreak (hline param hparam hends)) hne' hnew).2
      (by simpa using hcomment)
    have hle := length_filterMap_le (fun entry : Entry => Param.of? entry.text entry.masked)
      (EntryList.ofCells (Lex.code.cells list (some ')'))).entries
    have hlength := congrArg length horder
    rw [← hparams] at hle
    simp only [length_map, length_append] at hlt hlength
    omega
  · intro hclosed
    have hread := hlays.entries_eq hold' (by simpa using hclosed) hne' hnew
    have hnames : ∀ param ∈ ctor.params, (Param.of? param.text.toList
        (Entry.ofText param.text.toList).masked).map (·.name) = some param.name :=
      fun param hparam => congrArg (Option.map (·.name)) (hold param hparam).2
    rw [hparams, hread, map_append, filterMap_append, map_append]
    exact congrArg₂ _ (names_of_texts hnames)
      (names_of_texts fun binding hbinding => (hbindings binding hbinding).param)

end ServiceInjection
