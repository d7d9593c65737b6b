import ServiceInjection.Proofs.Wiring.FreshConstructor
import ServiceInjection.Proofs.Wiring.MergedLists

/-!
# Wiring.ExtendedConstructor

Constructors that are extended. The text that takes the place of a constructor is its comment and
a method again, with the old head and signature, a list of all parameters, and a body on lines of
its own. The main statement is that such text is read as a constructor whose parameters are those
of the new list (`mergedConstructor_declares`). Whether they are the old parameters and the new
ones is another matter: that depends on the text of the old ones.
-/

namespace ServiceInjection

open Text List

variable {indent : String} {bindings : List Binding} {method : WrittenMethod} {head : MethodHead}
  {ctor : Constructor} {style : CodeStyle} {source : Source}

/-! ### The signature of a written method -/

/-- The text around the parameters of a written method. -/
theorem WrittenMethod.Sound.signature_ofLayout (h : method.Sound head) (doc : Option LineSpan) :
    (Constructor.ofLayout (.written method.lines) h.layout doc).signatureStart.toList =
        method.front ++ ['('] ∧
      (Constructor.ofLayout (.written method.lines) h.layout doc).signatureEnd.toList =
        ')' :: (method.signature ++ ['{']) := by
  obtain ⟨hvalid, hrest⟩ := h.rest
  constructor
  · obtain ⟨hjoined, -, hlines⟩ := pieces_spec method.text
    obtain ⟨behind, others, hfirst⟩ := exists_first_line hlines h.starts.line (by decide) hjoined
    have hraw : (Source.written method.lines).raw 0 = method.front ++ '(' :: behind :=
      Source.raw_written (by rw [WrittenMethod.lines, hfirst]; rfl)
    show (String.ofList (((Source.written method.lines).raw 0).take (method.front.length + 1))).toList = _
    rw [String.toList_ofList, hraw, take_length_add_append]
    rfl
  · have hsplit : (Source.written method.lines).rest ⟨0, method.front.length⟩ =
        (.show '(' :: Lex.code.cells method.params (some ')')) ++
          ((.show ')' :: Lex.code.cells method.signature (some '{')) ++
            .show '{' :: (Lex.code.cells method.body (some '}') ++
              .show '}' :: Lex.code.cells method.back none)) := by
      rw [hrest]
      simp [MethodText.cells, methodText]
    have hend : h.layout.bodyOpen = (Source.written method.lines).advance ⟨0, method.front.length⟩
        ((Cell.show '(' :: Lex.code.cells method.params (some ')')).length +
          (Cell.show ')' :: Lex.code.cells method.signature (some '{')).length) := by
      show Source.advance _ _ ((Lex.code.cells method.params (some ')')).length + 1 + 1 +
        (Lex.code.cells method.signature (some '{')).length) = _
      congr 1
      simp only [length_cons]
      omega
    show (Line.text (Source.slice _ h.layout.paramsClose h.layout.bodyOpen.next)).toList = _
    rw [hend, show h.layout.paramsClose = (Source.written method.lines).advance
      ⟨0, method.front.length⟩ (Cell.show '(' :: Lex.code.cells method.params (some ')')).length from rfl,
      Source.slice_next hvalid hsplit (by decide), Line.text, String.toList_ofList, Line.raw_append]
    show ')' :: Line.raw (Lex.code.cells method.signature (some '{')) ++ ['{'] = _
    rw [Lex.raw_cells]
    rfl

/-- A constructor behind its comment and attributes. -/
theorem WrittenMethod.Sound.declares_constructor (h : method.Sound head)
    (hname : sameName head.name "__construct" = true) {docs : List (List Char)}
    (hdocs : Declares docs {}) :
    ∃ added, Declares (docs ++ method.lines) added ∧ added.factory = none ∧ added.constructor =
      some ((Constructor.ofLayout (.written method.lines) h.layout none).moved docs.length) := by
  have hfactory : head.isFactory = false := by
    rw [MethodHead.isFactory, Bool.and_eq_false_iff, beq_eq_false_iff_ne]
    refine .inl fun hcreate => ?_
    rw [hcreate] at hname
    exact absurd hname (by decide)
  refine ⟨_, hdocs.append (h.declares (by rw [hfactory]; rfl)), ?_, ?_⟩
  · simp [WrittenMethod.Sound.added, MemberScan.addMethod, hname, Members.moved]
  · simp [WrittenMethod.Sound.added, MemberScan.addMethod, hname, Members.moved]

/-! ### Extended constructors as text -/

namespace Render

/-- A list with one entry a line is laid out with a line end and the indentation behind
each comma. -/
theorem laysOut_listLines {entries : List String} (hne : entries ≠ []) {close : String}
    (trailing : Bool) (hindent : Blank indent.toList) (hclose : Blank close.toList) :
    LaysOut ('\n' :: indent.toList) (entries.map String.toList)
      ('\n' :: (joined ((listLines indent trailing entries).map String.toList) ++
        '\n' :: close.toList)) := by
  have hbreak : ∀ {cs : List Char}, Blank cs → Blank ('\n' :: cs) := fun hcs =>
    forall_mem_cons.mpr ⟨by decide, hcs⟩
  refine ⟨'\n' :: indent.toList, (if trailing then [','] else []) ++ '\n' :: close.toList,
    hbreak hindent, hbreak hindent, ?_, ?_⟩
  · cases trailing
    · exact .inl (hbreak hclose)
    · exact .inr ⟨_, hbreak hclose, rfl⟩
  · rw [joined_listLines hne]
    simp

/-- Lines that open a list, hold its entries and close it. -/
theorem toList_listBlock {entries : List String} (hne : entries ≠ []) {start close stop : String}
    (trailing : Bool) {front back : List Char} (hstart : start.toList = front ++ ['('])
    (hstop : stop.toList = ')' :: back) :
    (joinLines (start :: listLines indent trailing entries ++ [close ++ stop])).toList =
      front ++ '(' :: (('\n' :: (joined ((listLines indent trailing entries).map String.toList) ++
        '\n' :: close.toList)) ++ ')' :: back) := by
  have hlines : (listLines indent trailing entries).map String.toList ≠ [] := by
    simpa using listLines_ne_nil hne indent trailing
  rw [toList_joinLines, cons_append, map_cons, joined_cons _ (by simp), map_append,
    joined_append (by simp), unlines_eq_joined hlines, hstart]
  simp [hstop]

/-- The parameters of an extended constructor are laid out on one line or one a line. -/
theorem exists_mergedSignature {front back : List Char}
    (hstart : ctor.signatureStart.toList = front ++ ['('])
    (hend : ctor.signatureEnd.toList = ')' :: back) (hne : bindings ≠ [])
    (hmember : Blank style.memberIndent.toList) (hbody : Blank style.bodyIndent.toList) :
    ∃ gap list, joined ((mergedSignature style source ctor bindings).map String.toList) =
        front ++ '(' :: (list ++ ')' :: back) ∧
      LaysOut gap ((mergedParams ctor bindings).map String.toList) list ∧
      (ctor.multilineParams = true → '\n' ∈ gap) := by
  have hparams : mergedParams ctor bindings ≠ [] := by simp [mergedParams, hne]
  have hblanks : ∀ n, Blank (String.ofList (leadingBlanks (source.raw n))).toList := by
    intro n
    rw [String.toList_ofList]
    exact blank_leadingBlanks _
  rw [← toList_joinLines]
  unfold mergedSignature
  dsimp only
  split
  · rename_i hone
    refine ⟨[' '], listText [' '] ((mergedParams ctor bindings).map String.toList), ?_, ?_, ?_⟩
    · rw [joinLines, String.intercalate_singleton, String.toList_append, String.toList_append,
        toList_commas, hstart, hend]
      simp
    · exact ⟨[], [], forall_mem_nil _, by decide, .inl (forall_mem_nil _), by simp⟩
    · intro hlines
      simp [hlines] at hone
  · -- The closing parenthesis is not blank, so nothing is trimmed in front of it.
    have hstop : (String.ofList (trimStart ctor.signatureEnd.toList)).toList = ')' :: back := by
      rw [String.toList_ofList, hend, trimStart, dropWhile_cons_of_neg (by decide)]
    split
    · exact ⟨_, _, toList_listBlock hparams _ hstart hstop,
        laysOut_listLines hparams _ (hblanks _) (hblanks _), fun _ => mem_cons_self⟩
    · exact ⟨_, _, toList_listBlock hparams _ hstart hstop,
        laysOut_listLines hparams _ hbody hmember, fun _ => mem_cons_self⟩

/-- The lines of a body that an extended constructor keeps. -/
def keptBody (style : CodeStyle) (ctor : Constructor) (body : List String) : List String :=
  if ctor.openBraceLine == ctor.endLine then body.map (style.bodyIndent ++ ·) else body

/-- An extended constructor is a comment and a method with a body on lines of its own. -/
theorem toList_mergedConstructor (hstyle : style.Writable) (hlines : ∀ n, '\n' ∉ source.raw n)
    {front list signature : List Char} (hsignature : joined ((mergedSignature style source ctor
      bindings).map String.toList) = front ++ '(' :: (list ++ ')' :: (signature ++ ['{'])))
    (body : List String) :
    ∃ close tail, Blank close ∧ Blank tail ∧ '\n' ∉ tail ∧
      (mergedConstructor style source ctor bindings body).toList =
        unlines ((mergedDoc style source ctor bindings).map String.toList) ++
          (WrittenMethod.mk front list signature ('\n' :: (unlines ((keptBody style ctor body ++
            missingAssignments style bindings body).map String.toList) ++ close)) tail).text := by
  have hne : (mergedSignature style source ctor bindings).map String.toList ≠ [] := by
    simpa using mergedSignature_ne_nil style source ctor bindings
  -- The closing brace stands between blanks, on its old line or on a new one.
  obtain ⟨close, tail, hclose, htail, hline, hclosing⟩ : ∃ close tail, Blank close ∧ Blank tail ∧
      '\n' ∉ tail ∧ (if ctor.openBraceLine == ctor.endLine ||
        trim (source.line ctor.endLine).text.toList != ['}'] then style.memberIndent ++ "\x7d"
        else (source.line ctor.endLine).text).toList = close ++ '}' :: tail := by
    split
    · exact ⟨style.memberIndent.toList, [], hstyle.memberIndent.1, forall_mem_nil _, not_mem_nil,
        String.toList_append⟩
    · rename_i hkept
      obtain ⟨lead, tail, hlead, htail, htext⟩ := exists_trim (source.line ctor.endLine).text.toList
      simp only [Bool.or_eq_true, not_or, bne_iff_ne, ne_eq, not_not] at hkept
      rw [hkept.2] at htext
      refine ⟨lead, tail, hlead, htail, fun hmem => hlines ctor.endLine ?_, htext⟩
      have hmem' : '\n' ∈ (source.line ctor.endLine).text.toList := by
        rw [htext]
        simp [hmem]
      rwa [Line.text, String.toList_ofList] at hmem'
  refine ⟨close, tail, hclose, htail, hline, ?_⟩
  simp only [mergedConstructor, toList_joinLines, map_append, map_cons, map_nil, append_assoc, hclosing]
  rw [joined_append (by simp), joined_append (by simp), unlines_eq_joined hne, hsignature,
    ← append_assoc (map _ _), ← map_append, ← keptBody, joined_append (by simp)]
  simp [WrittenMethod.text]

/-- Lines of code. -/
structure IsCode (ls : List (List Char)) : Prop where
  lines : ∀ line ∈ ls, '\n' ∉ line
  block : CodeBlock (unlines ls) none

theorem IsCode.append {ls ls' : List (List Char)} (h : IsCode ls) (h' : IsCode ls') :
    IsCode (ls ++ ls') := by
  refine ⟨forall_mem_append.mpr ⟨h.lines, h'.lines⟩, ?_⟩
  rw [unlines_append]
  exact (h.block.unlines_next _).append h'.block

theorem isCode_missingAssignments (hstyle : style.Writable) (h : ∀ binding ∈ bindings,
    binding.promoted = false → IsName binding.field.toList ∧ IsName binding.param.toList)
    (body : List String) : IsCode ((missingAssignments style bindings body).map String.toList) := by
  have hlines : ∀ line ∈ (missingAssignments style bindings body).map String.toList,
      IsLine line ∧ CodeBlock line none := by
    intro line hline
    obtain ⟨statement, hstatement, rfl⟩ := mem_map.mp hline
    obtain ⟨binding, hbinding, rfl⟩ := mem_map.mp (mem_filter.mp hstatement).1
    obtain ⟨hbinding, hpromoted⟩ := mem_filter.mp hbinding
    obtain ⟨hfield, hparam⟩ := h binding hbinding (by simpa using hpromoted)
    exact codeBlock_assignment hstyle hfield hparam
  exact ⟨fun line hline => (hlines line hline).1.1, .unlines fun line hline =>
    (hlines line hline).2⟩

/-- **Extended constructors are read.** A constructor that is extended is a constructor again,
and its parameters are read from the list that was written. -/
theorem mergedConstructor_declares (hstyle : style.Writable) (hlines : ∀ n, '\n' ∉ source.raw n)
    (h : method.Sound head) (hname : sameName head.name "__construct" = true) (hne : bindings ≠ [])
    (hstart : ctor.signatureStart.toList = method.front ++ ['('])
    (hend : ctor.signatureEnd.toList = ')' :: (method.signature ++ ['{'])) {body : List String}
    (hdoc : Declares ((mergedDoc style source ctor bindings).map String.toList) {})
    (hbody : IsCode ((keptBody style ctor body).map String.toList))
    (hnames : ∀ binding ∈ bindings, binding.promoted = false →
      IsName binding.field.toList ∧ IsName binding.param.toList)
    (hold : ∀ param ∈ ctor.params, Listable param.text.toList)
    (hbreaks : ∀ param ∈ ctor.params, EndsInComment param.text.toList → ctor.multilineParams = true)
    (hnew : ∀ binding ∈ bindings,
      Listable binding.declaration.toList ∧ ¬ EndsInComment binding.declaration.toList) :
    ∃ new added ctor',
      (mergedConstructor style source ctor bindings body).toList ++ ['\n'] = unlines new ∧
      Declares new added ∧ added.factory = none ∧ added.constructor = some ctor' ∧
      ctor.ReadsMerged bindings ctor'.params := by
  obtain ⟨gap, list, hsignature, hlays, hbreak⟩ := @exists_mergedSignature bindings ctor style source _ _
    hstart hend hne hstyle.memberIndent.1 hstyle.bodyIndent.1
  obtain ⟨close, tail, hclose, htail, hline, htext⟩ := toList_mergedConstructor hstyle hlines hsignature body
  obtain ⟨hafter, hnested⟩ : Lex.code.after list (some ')') = .code ∧
      Nested (Lex.code.cells list (some ')')).code := by
    rw [mergedParams, map_append, map_map, map_map] at hlays
    exact (hlays.reads (by simpa using hold)
      (by simpa using fun param hparam hends => hbreak (hbreaks param hparam hends))
      (by simpa using hne) (by simpa using hnew)).1
  have hcode := hbody.append (isCode_missingAssignments hstyle hnames body)
  rw [← map_append] at hcode
  have hsound : (WrittenMethod.mk method.front list method.signature ('\n' :: (unlines ((keptBody style
      ctor body ++ missingAssignments style bindings body).map String.toList) ++ close)) tail).Sound
      head :=
    { starts := h.starts
      params := ⟨hafter, hnested.2.2⟩
      params_nested := hnested.1
      signature := h.signature
      signature_plain := h.signature_plain
      body := .cons (by decide) (by decide) (by decide)
        ((hcode.block.unlines_next _).append (.of_blank hclose))
      back := .of_blank (htail.append (by decide))
      back_line := hline }
  obtain ⟨added, hdeclares, hfactory, hctor⟩ := hsound.declares_constructor hname hdoc
  refine ⟨_, added, _, ?_, hdeclares, hfactory, hctor, gap, list, hlays, hbreak,
    hsound.params_ofLayout none⟩
  rw [htext, unlines_append, WrittenMethod.Sound.unlines_lines, append_assoc]

end Render

end ServiceInjection
