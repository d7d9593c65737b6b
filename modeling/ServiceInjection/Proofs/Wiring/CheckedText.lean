import ServiceInjection.Proofs.Outline.Sourced
import ServiceInjection.Proofs.Text.Checked
import ServiceInjection.Wiring.Render

/-!
# Wiring.CheckedText

The text of members, written with checks. Blanks are cut off a line by bytes, the last entry of
a list is found by taking one from its length, the lines of a doc comment are read by index, and
the line on which the parameters of a constructor end is found by taking the line ends behind
them from the line of the brace. A list that is laid out has an entry, a doc comment has a line,
and a signature has no more line ends than there are lines in front of its brace
(`Constructor.Countable`), so that none of these fails.
-/

namespace ServiceInjection

open Text List

/-! ### What is counted -/

/-- Whether the doc comment of a constructor has a line, and the line ends of its signature
behind the parameters can be taken from the line of its brace. -/
structure Constructor.Countable (ctor : Constructor) : Prop where
  doc_le : ∀ span ∈ ctor.doc, span.first ≤ span.last
  feeds_le : ctor.signatureEnd.toList.count '\n' ≤ ctor.openBraceLine

/-- A piece of a source has one line end for each line that it goes on to. -/
theorem Source.count_slice {source : Source} (hlines : ∀ line ∈ source.lines, '\n' ∉ line.raw)
    {first last : Spot} (h : first.line ≤ last.line) :
    (source.slice first last).raw.count '\n' = last.line - first.line := by
  have hline : ∀ n, '\n' ∉ (source.line n).raw := by
    intro n
    rw [Source.line, getD_eq_getElem?_getD]
    cases hget : source.lines[n]? with
    | none => exact not_mem_nil
    | some line => exact hlines line (mem_of_getElem? hget)
  have htake : ∀ n k, (Line.raw ((source.line n).take k)).count '\n' = 0 := fun n k =>
    count_eq_zero_of_not_mem fun hmem => hline n (by
      rw [Line.raw, map_take] at hmem
      exact mem_of_mem_take hmem)
  have hdrop : ∀ n k, (Line.raw ((source.line n).drop k)).count '\n' = 0 := fun n k =>
    count_eq_zero_of_not_mem fun hmem => hline n (by
      rw [Line.raw, map_drop] at hmem
      exact mem_of_mem_drop hmem)
  have hfeed : (Line.raw [lineEnd]).count '\n' = 1 := rfl
  have hinner : ∀ numbers : List Nat,
      (Line.raw ((numbers.map source.line).flatMap (· ++ [lineEnd]))).count '\n' = numbers.length := by
    intro numbers
    induction numbers with
    | nil => rfl
    | cons n rest ih =>
      rw [map_cons, flatMap_cons, Line.raw_append, Line.raw_append, count_append,
        count_append, ih, hfeed, count_eq_zero_of_not_mem (hline n), length_cons]
      omega
  rw [slice]
  split
  · rename_i hsame
    have hsame : first.line = last.line := by simpa using hsame
    rw [hsame, Nat.sub_self]
    exact count_eq_zero_of_not_mem fun hmem => hline last.line (by
      rw [Line.raw, map_drop, map_take] at hmem
      exact mem_of_mem_take (mem_of_mem_drop hmem))
  · rename_i hother
    have hother : first.line ≠ last.line := by simpa using hother
    have hcons : ∀ cells : Line, (Line.raw (lineEnd :: cells)).count '\n' = cells.raw.count '\n' + 1 :=
      fun cells => count_cons_self
    simp only [Line.raw_append, count_append, hcons, hdrop, htake, hinner, span,
      length_range']
    omega

/-- A constructor that is read from a text can be counted. -/
theorem Constructor.ReadFrom.countable {text : String} {layout : MethodLayout} {ctor : Constructor}
    (h : ctor.ReadFrom (Source.ofText text) layout) : ctor.Countable := by
  refine ⟨fun span hspan => (h.doc span hspan).first_le, ?_⟩
  have hlines : ∀ line ∈ (Source.ofText text).lines, '\n' ∉ line.raw :=
    Source.not_mem_written fun _ hline => not_mem_of_mem_lines hline
  obtain ⟨-, -, hle, -⟩ := MethodLayout.spec h.starts.at?
  have hcount := @Source.count_slice _ hlines layout.paramsClose layout.bodyOpen.next hle
  rw [h.eq]
  show ((Source.ofText text).slice layout.paramsClose layout.bodyOpen.next).text.toList.count '\n' ≤
    layout.bodyOpen.line
  rw [Line.text, String.toList_ofList, hcount]
  exact Nat.sub_le _ _

namespace Checked

/-! ### Style -/

/-- The layout of a class. -/
def style (outline : Outline) (source : Source) (defaultUnit : String) : Checked CodeStyle := do
  let outer ← leadingBlanks (source.raw outline.decl.line)
  let braceOnOwnLine := outline.decl.openBraceLine != outline.decl.line
  let fallback : CodeStyle := ⟨String.ofList outer ++ defaultUnit, defaultUnit, braceOnOwnLine⟩
  match (CodeStyle.memberLines outline.toMembers).min? with
  | none => .ok fallback
  | some n =>
    let indent ← leadingBlanks (source.raw n)
    if width8 outer < width8 indent && outer.isPrefixOf indent then
      let unit ← cut indent (width8 outer) (width8 indent)
      .ok ⟨String.ofList indent, String.ofList unit, braceOnOwnLine⟩
    else .ok fallback

/-- Of two texts that start alike, the longer one has more bytes. -/
theorem width8_lt_iff (front back : List Char) :
    width8 front < width8 (front ++ back) ↔ front.length < (front ++ back).length := by
  cases back with
  | nil => simp
  | cons c cs =>
    have hpos := c.utf8Size_pos
    simp only [width8_append, width8, length_append, length_cons]
    omega

theorem style_eq (outline : Outline) (source : Source) (defaultUnit : String) :
    style outline source defaultUnit = .ok (CodeStyle.detect outline source defaultUnit) := by
  simp only [style, leadingBlanks_eq, ok_bind, CodeStyle.detect]
  cases (CodeStyle.memberLines outline.toMembers).min? with
  | none => rfl
  | some n =>
    by_cases hprefix : Text.leadingBlanks (source.raw outline.decl.line) <+:
        Text.leadingBlanks (source.raw n)
    · obtain ⟨unit, hunit⟩ := hprefix
      simp only [← hunit, cut_behind, ok_bind, drop_left, width8_lt_iff]
      split <;> rfl
    · have hfalse : (Text.leadingBlanks (source.raw outline.decl.line)).isPrefixOf
          (Text.leadingBlanks (source.raw n)) = false := by
        rwa [Bool.eq_false_iff, ne_eq, isPrefixOf_iff_prefix]
      simp only [hfalse, Bool.and_false]
      rfl

/-! ### Lists and signatures -/

/-- The lines of a list with one entry a line. -/
def listLines (indent : String) (trailing : Bool) (entries : List String) : Checked (List String) := do
  let last ← sub entries.length 1
  .ok (entries.mapIdx fun i entry =>
    indent ++ if i < last || trailing then entry ++ "," else entry)

theorem mapIdx_withCommas (indent : String) (trailing : Bool) (entries : List String) :
    (entries.mapIdx fun i entry =>
      indent ++ if i < entries.length - 1 || trailing then entry ++ "," else entry) =
      (Render.withCommas trailing entries).map (indent ++ ·) := by
  induction entries with
  | nil => rfl
  | cons entry rest ih =>
    cases rest with
    | nil => simp [Render.withCommas]
    | cons next rest =>
      have hlater : ∀ i, i + 1 < (entry :: next :: rest).length - 1 ↔
          i < (next :: rest).length - 1 := by
        intro i
        simp only [length_cons]
        omega
      rw [mapIdx_cons, Render.withCommas, map_cons, ← ih]
      · simp only [hlater]
        congr 1
      · simp

theorem listLines_eq (indent : String) (trailing : Bool) {entries : List String} (h : entries ≠ []) :
    listLines indent trailing entries = .ok (Render.listLines indent trailing entries) := by
  rw [listLines, sub_eq (length_pos_iff.mpr h), ok_bind, mapIdx_withCommas]
  rfl

/-- The lines of a signature. -/
def signature (style : CodeStyle) (head : String) (params : List String) : Checked (List String) := do
  let indent := style.memberIndent
  let single := indent ++ head ++ "(" ++ ", ".intercalate params ++ ")" ++ style.openBrace
  let lines ←
    if Render.fits single || params.isEmpty then .ok [single]
    else do
      let listed ← listLines (indent ++ style.unit) false params
      .ok ((indent ++ head ++ "(") :: listed ++ [indent ++ ")" ++ style.openBrace])
  .ok (if style.braceOnOwnLine then lines ++ [indent ++ "\x7b"] else lines)

theorem signature_eq (style : CodeStyle) (head : String) (params : List String) :
    signature style head params = .ok (Render.signature style head params) := by
  rw [signature, Render.signature]
  cases params with
  | nil => simp
  | cons param params =>
    rw [listLines_eq _ _ (cons_ne_nil param params), ok_bind]
    simp only
    split <;> rfl

/-- A new constructor. -/
def freshConstructor (style : CodeStyle) (className : String) (conventions : Conventions)
    (bindings : List Binding) : Checked String := do
  let indent := style.memberIndent
  let summary :=
    if className.toList.contains '@' then "Constructs the object."
    else "Constructs a new " ++ className ++ " object."
  let signature ← signature style "public function __construct" (Render.freshParams conventions bindings)
  .ok (Render.joinLines (
    [indent ++ "/**", indent ++ " * " ++ summary, indent ++ " *"] ++
    conventions.leadingParams.flatMap
      (fun param => Render.paramDoc indent param.docType param.expression param.description) ++
    Render.bindingDocs indent bindings ++
    [indent ++ " */"] ++
    signature ++
    conventions.preamble.toList.map (style.bodyIndent ++ ·) ++
    (bindings.filter (!·.promoted)).map (·.assignment style.bodyIndent) ++
    [indent ++ "\x7d"]))

theorem freshConstructor_eq (style : CodeStyle) (className : String) (conventions : Conventions)
    (bindings : List Binding) :
    freshConstructor style className conventions bindings =
      .ok (Render.freshConstructor style className conventions bindings) := by
  rw [freshConstructor, signature_eq, ok_bind]
  rfl

/-! ### Doc comments -/

/-- Inserts lines in front of the line with the given index. -/
def insertAt (index : Nat) (new lines : List String) : Checked (List String) := do
  let back ← getFrom lines index
  .ok (lines.take index ++ new ++ back)

theorem insertAt_eq {index : Nat} {lines : List String} (h : index ≤ lines.length) (new : List String) :
    insertAt index new lines = .ok (Render.insertAt index new lines) := by
  rw [insertAt, getFrom_eq h, ok_bind]
  rfl

/-- The index behind the description that goes on at an index, in front of the last line. -/
def descriptionEnd (doc : List String) (close i : Nat) : Checked Nat :=
  if i < close then do
    let line ← get doc i
    if !Render.isTagLine line && !Render.isBlankDocLine line then descriptionEnd doc close (i + 1)
    else .ok i
  else .ok i
termination_by close - i

theorem descriptionEnd_eq {doc : List String} {close : Nat} (h : close ≤ doc.length) (i : Nat) :
    descriptionEnd doc close i =
      .ok (i + (((doc.take close).drop i).takeWhile fun line =>
        !Render.isTagLine line && !Render.isBlankDocLine line).length) := by
  induction hleft : close - i generalizing i with
  | zero =>
    have hdrop : (doc.take close).drop i = [] := drop_eq_nil_of_le (by
      rw [length_take]
      omega)
    rw [descriptionEnd, if_neg (by omega), hdrop]
    rfl
  | succ left ih =>
    have hlt : i < (doc.take close).length := by
      rw [length_take]
      omega
    have hget : doc.getD i "" = (doc.take close)[i] := by
      rw [getElem_take, getD_eq_getElem?_getD, getElem?_eq_getElem (by omega),
        Option.getD_some]
    rw [descriptionEnd, if_pos (by omega), get_eq (by omega) "", ok_bind,
      drop_eq_getElem_cons hlt, hget]
    split
    · rename_i hgoes
      rw [ih (i + 1) (by omega), takeWhile_cons, if_pos hgoes, length_cons]
      congr 1
      omega
    · rename_i hends
      rw [takeWhile_cons, if_neg hends]
      rfl

/-- A doc comment with new parameter lines. -/
def extendDoc (indent : String) (doc new : List String) : Checked (List String) := do
  if new.isEmpty then .ok doc
  else if doc.length == 1 then
    let line ← get doc 0
    let text := String.ofList (Render.docText line.toList)
    let summary := if text.isEmpty then [] else [indent ++ " * " ++ text, indent ++ " *"]
    .ok ([indent ++ "/**"] ++ summary ++ new ++ [indent ++ " */"])
  else
    let close ← sub doc.length 1
    match Render.lastIndex? Render.isParamLine doc with
    | some last =>
      let stop ← descriptionEnd doc close (last + 1)
      insertAt stop new doc
    | none =>
      let target := (doc.findIdx? Render.isTagLine).getD close
      let follows ←
        if 1 < target then do
          let before ← sub target 1
          let line ← get doc before
          .ok (!Render.isBlankDocLine line)
        else .ok false
      let before := if follows then [indent ++ " *"] else []
      let after := if target < close then [indent ++ " *"] else []
      insertAt target (before ++ new ++ after) doc

theorem lastIndex?_lt {test : String → Bool} {lines : List String} {i : Nat}
    (h : Render.lastIndex? test lines = some i) : i < lines.length := by
  obtain ⟨j, hj, rfl⟩ := Option.map_eq_some_iff.mp h
  have hlt := (findIdx?_eq_some_iff_getElem.mp hj).1
  rw [length_reverse] at hlt
  omega

theorem extendDoc_eq (indent : String) {doc : List String} (h : doc ≠ []) (new : List String) :
    extendDoc indent doc new = .ok (Render.extendDoc indent doc new) := by
  rw [extendDoc, Render.extendDoc.eq_def]
  split
  · rfl
  · obtain ⟨first, rest, rfl⟩ := exists_cons_of_ne_nil h
    cases rest with
    | nil => rfl
    | cons second rest =>
      simp only
      generalize hdoc : first :: second :: rest = doc
      have hlong : 1 < doc.length := by simp [← hdoc]
      have hmany : (doc.length == 1) = false := by simp; omega
      rw [hmany]
      simp only [Bool.false_eq_true, if_false, sub_eq (Nat.le_of_lt hlong), ok_bind]
      cases hlast : Render.lastIndex? Render.isParamLine doc with
      | some last =>
        have hlt := lastIndex?_lt hlast
        have hlength := (takeWhile_sublist (l := (doc.take (doc.length - 1)).drop (last + 1))
          fun line => !Render.isTagLine line && !Render.isBlankDocLine line).length_le
        rw [length_drop, length_take] at hlength
        simp only [descriptionEnd_eq (Nat.sub_le doc.length 1), ok_bind]
        exact insertAt_eq (by omega) new
      | none =>
        simp only
        generalize htarget : (doc.findIdx? Render.isTagLine).getD (doc.length - 1) = target
        have hle : target < doc.length := by
          rw [← htarget]
          cases hfound : doc.findIdx? Render.isTagLine with
          | none =>
            rw [Option.getD_none]
            omega
          | some i => exact (findIdx?_eq_some_iff_getElem.mp hfound).1
        by_cases hfollows : 1 < target
        · simp only [hfollows, if_true, sub_eq (Nat.le_of_lt hfollows), ok_bind,
            get_eq (show target - 1 < doc.length by omega) "", decide_true, Bool.true_and]
          exact insertAt_eq (Nat.le_of_lt hle) _
        · simp only [hfollows, if_false, decide_false, Bool.false_and]
          exact insertAt_eq (Nat.le_of_lt hle) _

/-! ### Constructors -/

variable {ctor : Constructor}

/-- The doc comment of a constructor with the new parameters, and the attributes behind it. -/
def mergedDoc (style : CodeStyle) (source : Source) (ctor : Constructor) (bindings : List Binding) :
    Checked (List String) :=
  let text := fun n => (source.line n).text
  match ctor.doc with
  | none => .ok []
  | some span => do
    let doc ← extendDoc style.memberIndent ((Source.span span.first span.last).map text)
      (Render.bindingDocs style.memberIndent bindings)
    .ok (doc ++ (List.range' (span.last + 1) (ctor.startLine - (span.last + 1))).map text)

theorem mergedDoc_eq (h : ctor.Countable) (style : CodeStyle) (source : Source) (bindings : List Binding) :
    mergedDoc style source ctor bindings = .ok (Render.mergedDoc style source ctor bindings) := by
  rw [mergedDoc, Render.mergedDoc]
  cases hdoc : ctor.doc with
  | none => rfl
  | some span =>
    have hlines : (Source.span span.first span.last).map (fun n => (source.line n).text) ≠ [] := by
      have hle := h.doc_le span hdoc
      rw [ne_eq, ← length_eq_zero_iff, length_map, Source.span, length_range']
      omega
    simp only [extendDoc_eq _ hlines, ok_bind]

/-- The signature of a constructor with the new parameters. -/
def mergedSignature (style : CodeStyle) (source : Source) (ctor : Constructor)
    (bindings : List Binding) : Checked (List String) := do
  let params := Render.mergedParams ctor bindings
  let closeLine ← sub ctor.openBraceLine (ctor.signatureEnd.toList.count '\n')
  let single := ctor.signatureStart ++ ", ".intercalate params ++ ctor.signatureEnd
  let firstLine := String.ofList ((lines single.toList).headD [])
  if !ctor.multilineParams && (Render.fits firstLine || params.isEmpty) then .ok [single]
  else
    let (paramIndent, closeIndent) ←
      if ctor.multilineParams then do
        let params ← leadingBlanks (source.raw (ctor.startLine + 1))
        let close ← leadingBlanks (source.raw closeLine)
        .ok (String.ofList params, String.ofList close)
      else .ok (style.bodyIndent, style.memberIndent)
    .ok (ctor.signatureStart :: Render.listLines paramIndent ctor.trailingComma params ++
      [closeIndent ++ String.ofList (trimStart ctor.signatureEnd.toList)])

theorem mergedSignature_eq (h : ctor.Countable) (style : CodeStyle) (source : Source)
    (bindings : List Binding) :
    mergedSignature style source ctor bindings =
      .ok (Render.mergedSignature style source ctor bindings) := by
  simp only [mergedSignature, Render.mergedSignature, sub_eq h.feeds_le, leadingBlanks_eq, ok_bind]
  split
  · rfl
  · cases ctor.multilineParams <;> rfl

/-- A constructor with new parameters, which are assigned behind the given body. -/
def mergedConstructor (style : CodeStyle) (source : Source) (ctor : Constructor)
    (bindings : List Binding) (body : List String) : Checked String := do
  let oneLine := ctor.openBraceLine == ctor.endLine
  let close := (source.line ctor.endLine).text
  let closing :=
    if oneLine || trim close.toList != ['}'] then style.memberIndent ++ "\x7d" else close
  let doc ← mergedDoc style source ctor bindings
  let signature ← mergedSignature style source ctor bindings
  .ok (Render.joinLines (
    doc ++ signature ++
    (if oneLine then body.map (style.bodyIndent ++ ·) else body) ++
    Render.missingAssignments style bindings body ++
    [closing]))

/-- **Extending a constructor succeeds.** -/
theorem mergedConstructor_eq (h : ctor.Countable) (style : CodeStyle) (source : Source)
    (bindings : List Binding) (body : List String) :
    mergedConstructor style source ctor bindings body =
      .ok (Render.mergedConstructor style source ctor bindings body) := by
  simp only [mergedConstructor, mergedDoc_eq h, mergedSignature_eq h, ok_bind]
  rfl

/-! ### Factories -/

/-- The statement that returns a new object, with one argument a line. -/
def returnNew (indent unit keyword : String) (arguments : List String) (trailing : Bool) :
    Checked String := do
  if arguments.isEmpty then .ok (indent ++ "return new " ++ keyword ++ "();")
  else
    let listed ← listLines (indent ++ unit) trailing arguments
    .ok (Render.joinLines (
      (indent ++ "return new " ++ keyword ++ "(") :: listed ++ [indent ++ ");"]))

theorem returnNew_eq (indent unit keyword : String) (arguments : List String) (trailing : Bool) :
    returnNew indent unit keyword arguments trailing =
      .ok (Render.returnNew indent unit keyword arguments trailing) := by
  cases arguments with
  | nil => rfl
  | cons argument arguments =>
    rw [returnNew, listLines_eq _ _ (cons_ne_nil argument arguments), ok_bind]
    rfl

/-- A new factory method. -/
def freshFactory (style : CodeStyle) (conventions : Conventions) (containerType : String)
    (arguments : List String) : Checked String := do
  let indent := style.memberIndent
  let params := (containerType ++ " $container") :: conventions.factoryParams
  let statement ← returnNew style.bodyIndent style.unit "static" arguments false
  .ok (Render.joinLines (
    [ indent ++ "/**",
      indent ++ " * \x7b@inheritdoc\x7d",
      indent ++ " */",
      indent ++ "public static function create(" ++ ", ".intercalate params ++ ")" ++
        style.openBrace ] ++
    (if style.braceOnOwnLine then [indent ++ "\x7b"] else []) ++
    [ statement,
      indent ++ "\x7d" ]))

theorem freshFactory_eq (style : CodeStyle) (conventions : Conventions) (containerType : String)
    (arguments : List String) :
    freshFactory style conventions containerType arguments =
      .ok (Render.freshFactory style conventions containerType arguments) := by
  rw [freshFactory, returnNew_eq, ok_bind]
  rfl

end Checked

end ServiceInjection
