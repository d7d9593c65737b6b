import ServiceInjection.Proofs.Call.Checked
import ServiceInjection.Proofs.Refactor.Overlap
import ServiceInjection.Proofs.Service.Indexed
import ServiceInjection.Proofs.Wiring.Checked

/-!
# Refactor.Checked

A refactoring that checks every cut of a text, every index and every difference. It reads the
class, binds services with an indexed directory and gathers the edits, each part with the
checked functions of its own module. What the parts rest on holds of every text: a constructor
is read from the source (`Constructor.ReadFrom.countable`), and a call ends behind its start
(`StaticCall.start_le_end`). So a refactoring faults on no text, and gives the batch, or the
reason for having none, that `refactor` gives.

Lines are numbers that may lie behind the end of a source, where a line is empty, and pieces
between two places are as long as the lines give them; neither is a check.
-/

namespace ServiceInjection

open Text List

/-- What is known about services, with an indexed directory. -/
structure IndexedKnowledge where
  indexed : IndexedDirectory
  registry : Option Registry := none
  options : Options := {}

/-- The same without the index. -/
def IndexedKnowledge.knowledge (facts : IndexedKnowledge) : Knowledge :=
  ⟨facts.indexed.directory, facts.registry, facts.options⟩

/-- A call ends behind its start. -/
theorem StaticCall.start_le_end {source : Source} {call : StaticCall} (h : call ∈ detect source) :
    call.startColumn ≤ call.endColumn := by
  obtain ⟨-, i, j, hstands, hstart, hstop, -⟩ := (found_of_mem_detect h).2
  rw [hstart, hstop]
  exact width16_take_mono _ (Nat.le_of_lt hstands.lt_and_le.1)

namespace Checked

variable {facts : IndexedKnowledge}

/-! ### Requested services -/

/-- Whether a service is known at all. -/
def knows (facts : IndexedKnowledge) (id : String) : Checked Bool := do
  let row ← lookup facts.indexed id
  .ok (row.isSome || facts.registry.any (·.contains id))

theorem knows_eq (h : facts.indexed.Sound) (id : String) :
    knows facts id = .ok (facts.knowledge.knows id) := by
  rw [knows, lookup_eq h, ok_bind]
  rfl

/-- The services to inject or to use. -/
def requestedIds (facts : IndexedKnowledge) (services : List String) (calls : List StaticCall) :
    Checked (List String) :=
  let ids := if services.isEmpty then StaticCall.serviceIds calls else distinct services
  if facts.options.strictServices then
    ids.filterMapM fun id => do
      let known ← knows facts id
      .ok (Option.guard (fun _ => known) id)
  else .ok ids

theorem requestedIds_eq (h : facts.indexed.Sound) (services : List String) (calls : List StaticCall) :
    requestedIds facts services calls =
      .ok (ServiceInjection.requestedIds facts.knowledge services calls) := by
  rw [requestedIds, ServiceInjection.requestedIds, show facts.knowledge.options = facts.options from rfl]
  split
  · rw [← filterMap_eq_filter]
    refine filterMapM_ok fun id _ => ?_
    rw [knows_eq h, ok_bind]
    rfl
  · rfl

/-- The static calls in the body of a class, without those of classes inside it. -/
def calls (subject : Subject) : Checked (List StaticCall) := do
  let found ← detect subject.source
  found.filterMapM fun call => do
    if subject.outline.bodyContains call.line then
      let declared ← enclosingDeclaration subject.source call.line
      .ok (if declared == some subject.outline.decl.line then some call else none)
    else .ok none

theorem calls_eq (subject : Subject) : calls subject = .ok subject.calls := by
  rw [calls, detect_eq, ok_bind, Subject.calls, ← filterMap_eq_filter]
  refine filterMapM_ok fun call _ => ?_
  rw [enclosingDeclaration_eq, ok_bind, Option.guard]
  cases subject.outline.bodyContains call.line <;> rfl

/-! ### Services that a class receives -/

/-- The property of a service that the factory names. -/
def knownField (indexed : IndexedDirectory) (outline : Outline) (id : String) :
    Checked (Option String) :=
  match outline.fieldForService? id with
  | some field => .ok (some field)
  | none => do
    let some row ← lookup indexed id | .ok none
    .ok (if (outline.field? row.field).isSome then some row.field else none)

theorem knownField_eq {indexed : IndexedDirectory} (h : indexed.Sound) (outline : Outline) (id : String) :
    knownField indexed outline id = .ok (ExistingWiring.knownField indexed.directory outline id) := by
  rw [knownField, ExistingWiring.knownField]
  cases outline.fieldForService? id with
  | some field => rfl
  | none =>
    simp only [lookup_eq h, ok_bind]
    cases indexed.directory.lookup? id <;> rfl

/-- The wiring of a class with a factory. -/
def wiringOfFactory (indexed : IndexedDirectory) (outline : Outline) (factory : Factory) :
    Checked ExistingWiring := do
  let fields ← factory.serviceIds.filterMapM fun id => do
    let field ← knownField indexed outline id
    .ok (field.map (id, ·))
  .ok { ExistingWiring.ofFactory indexed.directory outline factory with fields }

theorem wiringOfFactory_eq {indexed : IndexedDirectory} (h : indexed.Sound) (outline : Outline)
    (factory : Factory) :
    wiringOfFactory indexed outline factory =
      .ok (ExistingWiring.ofFactory indexed.directory outline factory) := by
  rw [wiringOfFactory, filterMapM_ok fun id _ => by rw [knownField_eq h, ok_bind], ok_bind]
  rfl

/-- The qualified name that a type name stands for. -/
def resolveTypeName (outline : Outline) (name : String) : Checked String :=
  match name.toList with
  | '\\' :: rest => .ok (String.ofList rest)
  | cs =>
    let first := cs.takeWhile (· != '\\')
    match outline.importOfLocalName? (String.ofList first) with
    | some entry => do
      let back ← cut cs (width8 first) (width8 cs)
      .ok (entry.name ++ String.ofList back)
    | none => .ok name

theorem resolveTypeName_eq (outline : Outline) (name : String) :
    resolveTypeName outline name = .ok (outline.resolveTypeName name) := by
  have hcut := cut_behind (name.toList.takeWhile (· != '\\')) (name.toList.dropWhile (· != '\\'))
  rw [takeWhile_append_dropWhile] at hcut
  rw [resolveTypeName, Outline.resolveTypeName]
  generalize name.toList = cs at hcut ⊢
  split
  · rfl
  · simp only [hcut, ok_bind]
    cases outline.importOfLocalName? (String.ofList (cs.takeWhile (· != '\\'))) <;> rfl

/-- The service that a parameter receives, by its type. -/
def serviceOfParam (directory : Directory) (outline : Outline) (param : Param) :
    Checked (Option String) := do
  let some hint := param.typeHint | .ok none
  let name ← resolveTypeName outline (String.ofList (hint.toList.dropWhile (· == '?')))
  .ok ((directory.findByInterface? name).map (·.serviceId))

theorem serviceOfParam_eq (directory : Directory) (outline : Outline) (param : Param) :
    serviceOfParam directory outline param =
      .ok (ExistingWiring.serviceOfParam directory outline param) := by
  rw [serviceOfParam, ExistingWiring.serviceOfParam]
  cases param.typeHint with
  | none => rfl
  | some hint =>
    simp only [resolveTypeName_eq, ok_bind, Option.bind_eq_bind, Option.bind_some]
    cases directory.findByInterface? _ <;> rfl

/-- The wiring of a class with a constructor and no factory. -/
def wiringOfConstructor (directory : Directory) (outline : Outline) (ctor : Constructor)
    (leading : Nat) : Checked ExistingWiring := do
  let services ← (ctor.params.drop leading).mapM fun param => do
    let id ← serviceOfParam directory outline param
    .ok (id, param)
  let known := services.filterMap fun (id, param) => id.map (·, param)
  .ok {
    ids := known.map (·.1)
    fields := known.filterMap fun (id, param) =>
      (outline.fieldForParam? param.name).map (id, ·)
    params := known.map fun (id, param) => (id, param.name)
    paramServices := services.map (·.1) }

theorem wiringOfConstructor_eq (directory : Directory) (outline : Outline) (ctor : Constructor)
    (leading : Nat) :
    wiringOfConstructor directory outline ctor leading =
      .ok (ExistingWiring.ofConstructor directory outline ctor leading) := by
  rw [wiringOfConstructor, mapM_ok fun param _ => by rw [serviceOfParam_eq, ok_bind], ok_bind]
  rfl

/-- The services that a class already receives. -/
def wiringOf (indexed : IndexedDirectory) (subject : Subject) : Checked ExistingWiring :=
  match subject.outline.factory, subject.outline.constructor with
  | some factory, _ => wiringOfFactory indexed subject.outline factory
  | none, some ctor =>
    wiringOfConstructor indexed.directory subject.outline ctor
      subject.conventions.leadingParams.length
  | none, none => .ok {}

theorem wiringOf_eq {indexed : IndexedDirectory} (h : indexed.Sound) (subject : Subject) :
    wiringOf indexed subject = .ok (ExistingWiring.of indexed.directory subject) := by
  rw [wiringOf, ExistingWiring.of]
  cases subject.outline.factory with
  | some factory => exact wiringOfFactory_eq h subject.outline factory
  | none =>
    cases subject.outline.constructor with
    | some ctor => exact wiringOfConstructor_eq _ _ ctor _
    | none => rfl

/-! ### New services -/

/-- How new parameters are declared. -/
def promotionOf (subject : Subject) : Checked Promotion :=
  match subject.outline.constructor with
  | none => .ok ⟨false, false⟩
  | some ctor => do
    let leading := subject.conventions.leadingParams.length
    let promoted ←
      if leading < ctor.params.length then do
        let own ← getFrom ctor.params leading
        .ok (own.all (·.promoted))
      else .ok false
    let readonly := ctor.params.any fun param => containsText "readonly" param.text.toList
    .ok ⟨promoted, promoted && readonly⟩

theorem promotionOf_eq (subject : Subject) : promotionOf subject = .ok (.of subject) := by
  rw [promotionOf, Promotion.of]
  cases subject.outline.constructor with
  | none => rfl
  | some ctor =>
    simp only
    by_cases hown : subject.conventions.leadingParams.length < ctor.params.length
    · have hsome : (ctor.params.drop subject.conventions.leadingParams.length).isEmpty = false := by
        rw [isEmpty_eq_false_iff, ne_eq, drop_eq_nil_iff]
        omega
      rw [if_pos hown, getFrom_eq (Nat.le_of_lt hown), ok_bind, ok_bind, hsome]
      rfl
    · rw [if_neg hown, ok_bind, drop_eq_nil_of_le (Nat.le_of_not_lt hown)]
      rfl

/-- The binding of a service. -/
def bindService (facts : IndexedKnowledge) (outline : Outline) (reserved : Reservations)
    (id : String) : Checked (Binding × Reservations) := do
  match ← lookup facts.indexed id with
  | some row => .ok (bindRow outline reserved row)
  | none => .ok (bindUntyped id (facts.knowledge.classOf? id), reserved)

theorem bindService_eq (h : facts.indexed.Sound) (outline : Outline) (reserved : Reservations)
    (id : String) :
    bindService facts outline reserved id =
      .ok (ServiceInjection.bindService facts.knowledge outline reserved id) := by
  rw [bindService, lookup_eq h, ok_bind, ServiceInjection.bindService,
    show facts.knowledge.directory = facts.indexed.directory from rfl]
  cases facts.indexed.directory.lookup? id <;> rfl

/-- Binds services one after the other. -/
def bindAll (facts : IndexedKnowledge) (outline : Outline) (promotion : Promotion) :
    Reservations → List Binding → List String → Checked (List Binding × Reservations)
  | reserved, bindings, [] => .ok (bindings, reserved)
  | reserved, bindings, id :: rest => do
    let (binding, reserved) ← bindService facts outline reserved id
    match distinctField bindings binding with
    | some binding =>
      bindAll facts outline promotion reserved (bindings ++ [promotion.adjust binding]) rest
    | none => bindAll facts outline promotion reserved bindings rest

theorem bindAll_eq (h : facts.indexed.Sound) (outline : Outline) (promotion : Promotion)
    (reserved : Reservations) (bindings : List Binding) (ids : List String) :
    bindAll facts outline promotion reserved bindings ids =
      .ok (ServiceInjection.bindAll facts.knowledge outline promotion reserved bindings ids) := by
  induction ids generalizing reserved bindings with
  | nil => rfl
  | cons id rest ih =>
    simp only [bindAll, bindService_eq h, ok_bind, ServiceInjection.bindAll, ih]
    generalize ServiceInjection.bindService facts.knowledge outline reserved id = bound
    cases distinctField bindings bound.1 <;> rfl

/-! ### The class and the draft -/

/-- The outline of the class around a line, or of the first class. -/
def outlineFound (source : Source) : Option Nat → Checked (Option Outline)
  | some line => outlineAt source line
  | none => outlineFirst source

theorem outlineFound_eq (source : Source) (cursorLine : Option Nat) :
    outlineFound source cursorLine =
      .ok (match cursorLine with
        | some line => Outline.at? source line
        | none => Outline.first? source) := by
  cases cursorLine with
  | some line => exact outlineAt_eq source line
  | none => exact outlineFirst_eq source

/-- The class that a request is about. -/
def subjectOf (options : Options) (request : Request) : Checked (Except RefactorError Subject) := do
  let some conventions := request.role.conventions? |
    .ok (.error (.unsupportedRole request.role.tag))
  let source := Source.ofText request.text
  let some outline ← outlineFound source request.cursorLine | .ok (.error .noEnclosingClass)
  let kind := outline.decl.kind
  if kind != .namedClass && kind != .anonymousClass then
    .ok (.error (.unsupportedShape (.notAClass outline.decl.name)))
  else if outline.decl.openBraceLine == outline.decl.closeBraceLine then
    .ok (.error (.unsupportedShape .singleLineBody))
  else
    let style ← style outline source options.indent
    .ok (.ok ⟨source, outline, conventions, style⟩)

theorem subjectOf_eq (options : Options) (request : Request) :
    subjectOf options request = .ok (request.subject options) := by
  rw [subjectOf, Request.subject]
  cases request.role.conventions? with
  | none => rfl
  | some conventions =>
    simp only [outlineFound_eq, style_eq, bind, Except.bind]
    cases request.cursorLine with
    | some line =>
      simp only
      cases Outline.at? (Source.ofText request.text) line with
      | none => rfl
      | some outline =>
          simp only
          split <;> [rfl; split] <;> rfl
    | none =>
      simp only
      cases Outline.first? (Source.ofText request.text) with
      | none => rfl
      | some outline =>
        simp only
        split <;> [rfl; split] <;> rfl

/-- The draft for a class. -/
def draftOf (facts : IndexedKnowledge) (services : List String) (subject : Subject) :
    Checked (Except RefactorError Draft) := do
  let outline := subject.outline
  let calls ← calls subject
  let requested ← requestedIds facts services calls
  let wiring ← wiringOf facts.indexed subject
  let new := requested.filter (!wiring.ids.contains ·)
  let promotion ← promotionOf subject
  let (bindings, reserved) ← bindAll facts outline promotion [] [] new
  let leading := subject.conventions.leadingParams.map (·.expression)
  let planned : Except RefactorError MethodPlan :=
    if bindings.isEmpty then .ok ⟨.keep, .keep⟩
    else (planMethods outline leading).mapError .unsupportedShape
  let replacements := (calls.filter (requested.contains ·.serviceId)).filterMap
    (replacementOf outline wiring bindings)
  .ok (planned.map fun plan => ⟨wiring, bindings, reserved, plan, replacements⟩)

theorem draftOf_eq (h : facts.indexed.Sound) (services : List String) (subject : Subject) :
    draftOf facts services subject = .ok (Draft.of facts.knowledge services subject) := by
  simp only [draftOf, calls_eq, requestedIds_eq h, wiringOf_eq h, promotionOf_eq, bindAll_eq h, ok_bind,
    Draft.of, show facts.knowledge.directory = facts.indexed.directory from rfl]
  split
  · rfl
  · cases planMethods subject.outline (subject.conventions.leadingParams.map (·.expression)) <;> rfl

/-! ### Edits -/

/-- The edits that wire new services up. -/
def wiringEdits (draft : Draft) (subject : Subject) (knownInterfaces : List String) :
    Checked (Except ShapeProblem (List Edit)) := do
  let field ← fieldEdit subject draft.bindings
  let constructor ← constructorEdit subject draft.plan draft.bindings (draft.patches subject.outline)
  let factory ← factoryEdit subject draft.plan draft.wiring (draft.containerType subject.outline).1.text
    draft.bindings
  .ok (factory.map fun factory =>
    (importEdit subject (draft.importNames subject knownInterfaces)).toList ++
      ((draft.marker subject knownInterfaces).map (·.1)).toList ++
      field.toList ++ constructor.toList ++ factory.toList)

/-- The edits of a draft in the order of their emission. -/
def editsOf (draft : Draft) (subject : Subject) (knownInterfaces : List String) :
    Checked (Except RefactorError (List Edit)) := do
  let wired ←
    if draft.bindings.isEmpty then .ok (.ok [])
    else do
      let wired ← wiringEdits draft subject knownInterfaces
      .ok (wired.mapError .unsupportedShape)
  .ok (wired.map fun wired => wired ++ (draft.loose subject.outline).map (·.edit))

theorem editsOf_eq {draft : Draft} {subject : Subject}
    (hctor : ∀ ctor ∈ subject.outline.constructor, ctor.Countable)
    (hcalls : ∀ replacement ∈ draft.replacements,
      replacement.call.startColumn ≤ replacement.call.endColumn) (knownInterfaces : List String) :
    editsOf draft subject knownInterfaces = .ok (draft.edits subject knownInterfaces) := by
  have hpatches : ∀ patch ∈ draft.patches subject.outline,
      patch.call.startColumn ≤ patch.call.endColumn :=
    fun patch hpatch => hcalls patch (mem_of_mem_filter hpatch)
  have hwired : wiringEdits draft subject knownInterfaces =
      .ok (draft.wiringEdits subject knownInterfaces) := by
    rw [wiringEdits, fieldEdit_eq, ok_bind, constructorEdit_eq hctor _ _ hpatches, ok_bind,
      factoryEdit_eq, ok_bind]
    rfl
  rw [editsOf, hwired, ok_bind, Draft.edits]
  cases draft.bindings.isEmpty <;> rfl

/-- Every two edits that follow one another. -/
def neighbours : List Edit → List (List Edit)
  | first :: second :: rest => [first, second] :: neighbours (second :: rest)
  | _ => []

theorem length_of_mem_neighbours {edits pair : List Edit} (h : pair ∈ neighbours edits) :
    pair.length = 2 := by
  induction edits with
  | nil => cases h
  | cons first rest ih =>
    cases rest with
    | nil => cases h
    | cons second rest =>
      rcases mem_cons.mp h with rfl | h
      · rfl
      · exact ih h

/-- Whether an edit reaches behind the start of the one before it in a batch. -/
def overlaps : List Edit → Bool
  | [later, earlier] => !earlier.range.stop.le later.range.start
  | _ => false

/-- The same for a pair that is read by index. -/
def overlapping (pair : List Edit) : Checked Bool := do
  let later ← get pair 0
  let earlier ← get pair 1
  .ok (!earlier.range.stop.le later.range.start)

/-- The batch of some edits. Neighbours that overlap are looked for and kept. -/
def assemble (edits : List Edit) : Checked Batch := do
  let batch := Batch.assemble edits
  let _ ← (neighbours batch.edits).mapM overlapping
  .ok batch

theorem assemble_eq (edits : List Edit) : assemble edits = .ok (Batch.assemble edits) := by
  have hpair : ∀ pair ∈ neighbours (Batch.assemble edits).edits, overlapping pair = .ok (overlaps pair) := by
    intro pair hpair
    obtain ⟨later, earlier, rfl⟩ := length_eq_two.mp (length_of_mem_neighbours hpair)
    rfl
  simp only [assemble, mapM_ok hpair, ok_bind]

/-! ### Refactoring -/

/-- The batch that injects the requested services, or the reason why there is none. -/
def refactorWith (facts : IndexedKnowledge) (request : Request) :
    Checked (Except RefactorError Batch) := do
  match ← subjectOf facts.options request with
  | .error reason => .ok (.error reason)
  | .ok subject =>
    match ← draftOf facts request.services subject with
    | .error reason => .ok (.error reason)
    | .ok draft =>
      match ← editsOf draft subject request.knownInterfaces with
      | .error reason => .ok (.error reason)
      | .ok edits =>
        if edits.isEmpty then .ok (.error .nothingToInject)
        else do
          let batch ← assemble edits
          .ok (.ok batch)

/-- What the edits of a refactoring rest on: the constructor is one of the text, and the calls
are found in it. -/
theorem editsOf_subject {knowledge : Knowledge} {request : Request} {subject : Subject} {draft : Draft}
    (hsubject : request.subject knowledge.options = .ok subject)
    (hdraft : Draft.of knowledge request.services subject = .ok draft) :
    editsOf draft subject request.knownInterfaces =
      .ok (draft.edits subject request.knownInterfaces) := by
  obtain ⟨hsource, n, houtline⟩ := Request.subject_spec hsubject
  rw [hsource] at houtline
  refine editsOf_eq (fun ctor hctor => ?_) (fun replacement hmem => ?_) _
  · obtain ⟨layout, hread⟩ := (Outline.sourced houtline).1 ctor hctor
    exact hread.countable
  · have hcall : replacement.call ∈ subject.calls :=
      (Draft.fits_of hdraft).calls.subset (mem_map_of_mem hmem)
    exact StaticCall.start_le_end (mem_of_mem_filter hcall)

theorem refactorWith_eq (h : facts.indexed.Sound) (request : Request) :
    refactorWith facts request = .ok (refactor facts.knowledge request) := by
  rw [refactorWith, subjectOf_eq, ok_bind, refactor,
    show facts.knowledge.options = facts.options from rfl]
  cases hsubject : request.subject facts.options with
  | error reason => rfl
  | ok subject =>
    simp only [draftOf_eq h, refactorEdits, bind, Except.bind]
    cases hdraft : Draft.of facts.knowledge request.services subject with
    | error reason => rfl
    | ok draft =>
      have hedits := @editsOf_subject facts.knowledge _ _ _ hsubject hdraft
      simp only [hedits, assemble_eq]
      cases draft.edits subject request.knownInterfaces with
      | error reason => rfl
      | ok edits =>
        simp only
        split <;> rfl

/-- The batch for services given by the entries of a directory. -/
def refactorAll (entries : List ServiceEntry) (registry : Option Registry) (options : Options)
    (request : Request) : Checked (Except RefactorError Batch) := do
  let indexed ← directoryOf entries
  refactorWith ⟨indexed, registry, options⟩ request

theorem refactorAll_eq (entries : List ServiceEntry) (registry : Option Registry) (options : Options)
    (request : Request) :
    refactorAll entries registry options request =
      .ok (refactor ⟨.ofEntries entries, registry, options⟩ request) := by
  obtain ⟨indexed, hindexed, hsound, hdirectory⟩ := directoryOf_ok entries
  have hrefactor := @refactorWith_eq ⟨indexed, registry, options⟩ hsound request
  rw [refactorAll, hindexed, ok_bind, hrefactor, IndexedKnowledge.knowledge, hdirectory]

/-- **No part of the pipeline faults.** Whatever the text, the line of the cursor, the request and
what is known about services: finding calls, reading the first class or the one around a line,
refactoring, and applying any batch make no cut outside a text or inside a character, read no
list behind its end and take no number from a smaller one. Each gives the result of the function
that it checks. -/
theorem pipeline_faultless (text : String) (line : Nat) (entries : List ServiceEntry)
    (registry : Option Registry) (options : Options) (request : Request) (batch : Batch) :
    detect (.ofText text) = .ok (StaticCall.detect (.ofText text)) ∧
      outlineFirst (.ofText text) = .ok (Outline.first? (.ofText text)) ∧
      outlineAt (.ofText text) line = .ok (Outline.at? (.ofText text) line) ∧
      refactorAll entries registry options request =
        .ok (refactor ⟨.ofEntries entries, registry, options⟩ request) ∧
      apply batch text = .ok (batch.apply text) :=
  ⟨detect_eq _, outlineFirst_eq _, outlineAt_eq _ line, refactorAll_eq entries registry options request,
    apply_eq batch text⟩

end Checked

end ServiceInjection
