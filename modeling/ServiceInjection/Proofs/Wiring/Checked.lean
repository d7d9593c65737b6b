import ServiceInjection.Proofs.Edit.Checked
import ServiceInjection.Proofs.Outline.Checked
import ServiceInjection.Proofs.Wiring.CheckedText
import ServiceInjection.Wiring.Edits

/-!
# Wiring.Checked

The edits of a class, made with checks. A call in the body of a constructor is replaced between
the byte offsets of its columns, on a line of the body found by taking the line of the brace from
the line of the call; the call is on a line behind the brace and its columns are in order, even
where the line has been patched before and is shorter than they say. The lines in front of
members are found by the walk over comments and attributes, and the texts come from
`ServiceInjection.Proofs.Wiring.CheckedText`.
-/

namespace ServiceInjection.Checked

open Text

/-! ### Patches of a body -/

/-- Replaces the text between two columns of a line. -/
def replaceColumns (start stop : Nat) (new line : String) : Checked String := do
  let cs := line.toList
  let replaced ← replaceBytes cs (byteOfColumn cs start) (byteOfColumn cs stop) new.toList
  .ok (String.ofList replaced)

theorem replaceColumns_eq {start stop : Nat} (h : start ≤ stop) (new line : String) :
    replaceColumns start stop new line = .ok (ServiceInjection.replaceColumns start stop new line) := by
  have hstart := List.prefix_iff_eq_take.mp (upToColumn_isPrefix start line.toList)
  have hstop := List.prefix_iff_eq_take.mp (upToColumn_isPrefix stop line.toList)
  have hreplace := replaceBytes_take line.toList new.toList (prefix_upToColumn h line.toList).length_le
  rw [← hstart, ← hstop] at hreplace
  rw [replaceColumns, byteOfColumn, byteOfColumn, hreplace, ok_bind]
  rfl

/-- Patches one call in a body on lines of its own. -/
def patchLine (ctor : Constructor) (body : List String) (patch : Replacement) :
    Checked (List String) := do
  let line := patch.call.line
  if line ≤ ctor.openBraceLine || ctor.endLine ≤ line then .ok body
  else
    let behind ← sub line ctor.openBraceLine
    let index ← sub behind 1
    match body[index]? with
    | none => .ok body
    | some old =>
      let new ← replaceColumns patch.call.startColumn patch.call.endColumn patch.text old
      .ok (body.set index new)

theorem patchLine_eq (ctor : Constructor) (body : List String) {patch : Replacement}
    (h : patch.call.startColumn ≤ patch.call.endColumn) :
    patchLine ctor body patch =
      .ok (if patch.call.line ≤ ctor.openBraceLine || ctor.endLine ≤ patch.call.line then body
        else body.modify (patch.call.line - ctor.openBraceLine - 1)
          (ServiceInjection.replaceColumns patch.call.startColumn patch.call.endColumn patch.text)) := by
  rw [patchLine]
  split
  · rfl
  · rename_i hinside
    simp only [Bool.or_eq_true, decide_eq_true_eq, not_or, Nat.not_le] at hinside
    rw [sub_eq (Nat.le_of_lt hinside.1), ok_bind, sub_eq (by omega), ok_bind,
      List.modify_eq_set_getElem?]
    cases hold : body[patch.call.line - ctor.openBraceLine - 1]? with
    | none => rfl
    | some old =>
      simp only [replaceColumns_eq h, ok_bind]
      rfl

/-- The body of a constructor with its calls replaced. -/
def patchedBody (ctor : Constructor) (patches : List Replacement) : Checked (List String) :=
  if ctor.openBraceLine == ctor.endLine then .ok (patchSingleLine ctor.body patches)
  else
    let fromEnd := patches.mergeSort fun a b =>
      (⟨b.call.line, b.call.startColumn⟩ : Position).le ⟨a.call.line, a.call.startColumn⟩
    fromEnd.foldlM (patchLine ctor) ctor.body

/-- **Patching a body succeeds.** -/
theorem patchedBody_eq (ctor : Constructor) {patches : List Replacement}
    (h : ∀ patch ∈ patches, patch.call.startColumn ≤ patch.call.endColumn) :
    patchedBody ctor patches = .ok (ServiceInjection.patchedBody ctor patches) := by
  rw [patchedBody, ServiceInjection.patchedBody]
  split
  · rfl
  · exact foldlM_ok
      (fun body patch hpatch => patchLine_eq ctor body (h patch (List.mem_mergeSort.mp hpatch))) _

/-! ### Properties -/

/-- The first line of what belongs to a member. -/
def memberStart (subject : Subject) (line leading : Nat) : Checked Nat := do
  let first ← leadingLine subject.source line
  .ok (min first leading)

theorem memberStart_eq (subject : Subject) (line leading : Nat) :
    memberStart subject line leading = .ok (ServiceInjection.memberStart subject line leading) := by
  rw [memberStart, leadingLine_eq, ok_bind]
  rfl

/-- The edit that declares properties. -/
def fieldEdit (subject : Subject) (bindings : List Binding) : Checked (Option Edit) := do
  let outline := subject.outline
  let new := bindings.filter fun binding =>
    !binding.promoted && (outline.field? binding.field).isNone
  if new.isEmpty || outline.traitUses.getLast?.isSome then
    .ok (ServiceInjection.fieldEdit subject bindings)
  else match outline.fields.find? (!·.promoted) with
    | some first =>
      let block := Render.fields subject.style new
      let description := "Add " ++ ", ".intercalate (new.map ("$" ++ ·.field))
      let start ← memberStart subject first.line first.leadingLine
      .ok (some (.insert description start 0 (block ++ "\n\n")))
    | none => .ok (ServiceInjection.fieldEdit subject bindings)

theorem fieldEdit_eq (subject : Subject) (bindings : List Binding) :
    fieldEdit subject bindings = .ok (ServiceInjection.fieldEdit subject bindings) := by
  rw [fieldEdit]
  split
  · rfl
  · rename_i hlater
    simp only [Bool.or_eq_true, not_or, Bool.not_eq_true, Option.isSome_eq_false_iff,
      Option.isNone_iff_eq_none] at hlater
    obtain ⟨hnew, htraits⟩ := hlater
    cases hfirst : subject.outline.fields.find? (!·.promoted) with
    | none => rfl
    | some first =>
      simp only [memberStart_eq, ok_bind, ServiceInjection.fieldEdit, hnew, htraits, hfirst]
      rfl

/-! ### Wiring methods -/

/-- The edit that adds a method. -/
def methodEdit (subject : Subject) (description : String) (after : Option Nat) (leads : Bool)
    (text : String) : Checked Edit :=
  match after with
  | some line => .ok (.insert description line (subject.lineEnd line) ("\n\n" ++ text))
  | none =>
    match subject.outline.methods with
    | first :: _ => do
      let line ← memberStart subject first.span.first first.leadingLine
      .ok (.insert description line 0 (text ++ "\n\n"))
    | [] => do
      let close := subject.outline.decl.closeBraceLine
      let blankBefore ←
        if 0 < close then do
          let above ← sub close 1
          .ok (subject.isBlankLine above)
        else .ok false
      let before := if blankBefore && leads then "" else "\n"
      .ok (.insert description close 0 (before ++ text ++ "\n"))

theorem methodEdit_eq (subject : Subject) (description : String) (after : Option Nat) (leads : Bool)
    (text : String) :
    methodEdit subject description after leads text =
      .ok (ServiceInjection.methodEdit subject description after leads text) := by
  rw [methodEdit.eq_def, ServiceInjection.methodEdit.eq_def]
  cases after with
  | some line => rfl
  | none =>
    cases subject.outline.methods with
    | cons first rest => simp only [memberStart_eq, ok_bind]
    | nil =>
      simp only
      by_cases hclose : 0 < subject.outline.decl.closeBraceLine
      · simp only [hclose, if_true, sub_eq hclose, ok_bind, decide_true, Bool.true_and]
      · simp only [hclose, if_false, ok_bind, decide_false, Bool.false_and]

/-- The edit that adds or extends the constructor. -/
def constructorEdit (subject : Subject) (plan : MethodPlan) (bindings : List Binding)
    (patches : List Replacement) : Checked (Option Edit) := do
  let outline := subject.outline
  match plan.constructor with
  | .keep => .ok none
  | .create =>
    let text ← freshConstructor subject.style outline.decl.name subject.conventions bindings
    let after := if plan.factory == .create then none else outline.factory.map (·.endLine)
    let edit ← methodEdit subject "Add constructor" after true text
    .ok (some edit)
  | .merge =>
    let some ctor := outline.constructor | .ok none
    let body ← patchedBody ctor patches
    let text ← mergedConstructor subject.style subject.source ctor bindings body
    .ok (some (.replaceLines "Inject services through the constructor" ctor.leadingLine ctor.endLine
      (subject.lineEnd ctor.endLine) text))

theorem constructorEdit_eq {subject : Subject} (h : ∀ ctor ∈ subject.outline.constructor, ctor.Countable)
    (plan : MethodPlan) (bindings : List Binding) {patches : List Replacement}
    (hpatches : ∀ patch ∈ patches, patch.call.startColumn ≤ patch.call.endColumn) :
    constructorEdit subject plan bindings patches =
      .ok (ServiceInjection.constructorEdit subject plan bindings patches) := by
  rw [constructorEdit, ServiceInjection.constructorEdit]
  cases plan.constructor with
  | keep => rfl
  | create => simp only [freshConstructor_eq, methodEdit_eq, ok_bind]
  | merge =>
    cases hctor : subject.outline.constructor with
    | none => rfl
    | some ctor =>
      simp only [patchedBody_eq ctor hpatches, mergedConstructor_eq (h ctor hctor), ok_bind]
      rfl

/-- The indentation of a line. -/
def indentOf (subject : Subject) (n : Nat) : Checked String := do
  let blanks ← leadingBlanks (subject.source.raw n)
  .ok (String.ofList blanks)

theorem indentOf_eq (subject : Subject) (n : Nat) : indentOf subject n = .ok (subject.indentOf n) := by
  rw [indentOf, leadingBlanks_eq, ok_bind]
  rfl

/-- The edit that passes new services from an existing factory. -/
def mergedFactory (subject : Subject) (factory : Factory) (bindings : List Binding) :
    Checked (Option Edit) := do
  let fetch := fetchExpression factory.containerVar
  match factory.shape with
  | .newStatic keyword arguments trailingComma returnLine returnEndLine =>
    let all := arguments ++ bindings.map (fetch ·.serviceId)
    let indent ← indentOf subject returnLine
    let statement ← returnNew indent subject.style.unit keyword all trailingComma
    let text := statement ++ afterLastSemicolon (subject.source.line returnEndLine)
    .ok (some (.replaceLines "Pass services from create()" returnLine returnEndLine
      (subject.lineEnd returnEndLine) text))
  | .instanceAssign instanceVar _ returnLine =>
    let indent ← indentOf subject returnLine
    let assign := fun (binding : Binding) =>
      indent ++ "$" ++ instanceVar ++ "->" ++ binding.field ++ " = " ++
        fetch binding.serviceId ++ ";\n"
    .ok (some (.insert "Set services in create()" returnLine 0 (String.join (bindings.map assign))))
  | .unrecognized => .ok none

theorem mergedFactory_eq (subject : Subject) (factory : Factory) (bindings : List Binding) :
    mergedFactory subject factory bindings =
      .ok (ServiceInjection.mergedFactory subject factory bindings) := by
  rw [mergedFactory, ServiceInjection.mergedFactory]
  cases factory.shape with
  | newStatic keyword arguments trailingComma returnLine returnEndLine =>
    simp only [indentOf_eq, returnNew_eq, ok_bind]
  | instanceAssign instanceVar assignments returnLine => simp only [indentOf_eq, ok_bind]
  | unrecognized => rfl

/-- The edit that adds or extends the factory. -/
def factoryEdit (subject : Subject) (plan : MethodPlan) (wiring : ExistingWiring)
    (containerType : String) (bindings : List Binding) :
    Checked (Except ShapeProblem (Option Edit)) :=
  match plan.factory with
  | .keep => .ok (.ok none)
  | .create =>
    match freshArguments subject wiring bindings with
    | .error problem => .ok (.error problem)
    | .ok arguments => do
      let text ← freshFactory subject.style subject.conventions containerType arguments
      let extending := plan.constructor != .create
      let after := if extending then subject.outline.constructor.map (·.endLine) else none
      let edit ← methodEdit subject "Add create() factory" after extending text
      .ok (.ok (some edit))
  | .merge => do
    let some factory := subject.outline.factory | .ok (.ok none)
    let edit ← mergedFactory subject factory bindings
    .ok (.ok edit)

theorem factoryEdit_eq (subject : Subject) (plan : MethodPlan) (wiring : ExistingWiring)
    (containerType : String) (bindings : List Binding) :
    factoryEdit subject plan wiring containerType bindings =
      .ok (ServiceInjection.factoryEdit subject plan wiring containerType bindings) := by
  rw [factoryEdit, ServiceInjection.factoryEdit]
  cases plan.factory with
  | keep => rfl
  | create =>
    cases freshArguments subject wiring bindings with
    | error problem => rfl
    | ok arguments =>
      simp only [freshFactory_eq, methodEdit_eq, ok_bind]
      rfl
  | merge =>
    cases subject.outline.factory with
    | none => rfl
    | some factory =>
      simp only [mergedFactory_eq, ok_bind]
      rfl

end ServiceInjection.Checked
