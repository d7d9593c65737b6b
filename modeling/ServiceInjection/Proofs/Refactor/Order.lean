import ServiceInjection.Proofs.Refactor.Kept
import ServiceInjection.Proofs.Refactor.Sections

/-!
# Refactor.Order

Whether an extended constructor and an extended factory keep the order of their lists. The
old entries are laid out again as they stand, each with a comma behind it, and the new ones
follow. The text with the edits is analysed again (`Draft.Layout.ofDeclaration_apply`): the
old entries and the new ones come out in order exactly if no old entry ends in a line
comment, for behind such an entry the comma belongs to the comment.
-/

namespace ServiceInjection

open Text List

variable {knowledge : Knowledge} {request : Request} {subject : Subject} {draft : Draft}
  {ctor : Constructor} {factory : Factory}

/-- What is known of a class whose constructor and factory are both extended. -/
theorem Draft.extending_of (hsubject : request.subject knowledge.options = .ok subject)
    (hindent : IsIndent knowledge.options.indent.toList) (hreturn : '\r' ∉ request.text.toList)
    (hplan : draft.plan = ⟨.merge, .merge⟩) (hbindings : draft.bindings ≠ [])
    (hctor : subject.outline.constructor = some ctor) (hfactory : subject.outline.factory = some factory)
    (hinscribed : ∀ binding ∈ draft.bindings, binding.Inscribed factory.containerVar)
    (hparams : ∀ param ∈ ctor.params, Balanced param.text.toList)
    (harguments : ∀ argument ∈ factory.arguments, Balanced argument.toList) :
    draft.Extending subject ctor factory := by
  obtain ⟨hsource, n, houtline⟩ := Request.subject_spec hsubject
  have hlines : ∀ n, IsLine (subject.source.raw n) :=
    hsource ▸ fun n => (Source.isLine_raw request.text n).2 hreturn
  have hstyle : subject.style.Writable := by
    rw [(Request.of_subject hsubject).2.2]
    exact CodeStyle.writable_detect _ hlines hindent
  obtain ⟨layout, hread⟩ := (Outline.sourced houtline).1 ctor hctor
  obtain ⟨layout', hread'⟩ := (Outline.sourced houtline).2 factory hfactory
  rw [hsource] at hread hread'
  refine ⟨hplan, hbindings, hstyle, hlines, ⟨hctor, hfactory⟩, fun param hparam => ?_,
    fun param hparam => (hread.entry hparam).2.2, fun argument hargument => ?_, hinscribed⟩
  · obtain ⟨hentry, hsome, -⟩ := hread.entry hparam
    exact ⟨⟨hentry, hparams param hparam⟩, hsome⟩
  · exact ⟨hread'.isEntry hargument, harguments argument hargument⟩

/-- **Order.** A refactoring that extends a constructor and a factory which returns a new
object with as many arguments is analysed again. The class of the text with the edits has a
constructor and a factory. The parameters are the old ones and then those of the new services,
exactly if no old one ends in a line comment; the arguments are the old ones and then one fetch
for each new service, exactly if no old one ends in a line comment. -/
theorem refactor_order_iff {knowledge : Knowledge} {request : Request} {batch : Batch}
    (h : refactor knowledge request = .ok batch)
    (hindent : IsIndent knowledge.options.indent.toList) (hreturn : '\r' ∉ request.text.toList)
    (hreturn' : '\r' ∉ (batch.apply request.text).toList) :
    ∃ subject draft edits, request.subject knowledge.options = .ok subject ∧
      Draft.of knowledge request.services subject = .ok draft ∧
      draft.edits subject request.knownInterfaces = .ok edits ∧
      (draft.plan = ⟨.merge, .merge⟩ →
        ∃ ctor factory, subject.outline.constructor = some ctor ∧
          subject.outline.factory = some factory ∧
          ctor.params.length = factory.arguments.length ∧
          ∀ layout : draft.Layout subject ctor factory
              (draft.importNames subject request.knownInterfaces) request.text,
            (∀ edit, edit ∈ edits ↔ edit ∈ layout.allEdits) →
            (∀ binding ∈ draft.bindings, binding.Inscribed factory.containerVar) →
            (∀ param ∈ ctor.params, Balanced param.text.toList) →
            (∀ argument ∈ factory.arguments, Balanced argument.toList) →
            ∃ n outline ctor' factory',
              Outline.ofDeclaration (Source.ofText (batch.apply request.text)) n = some outline ∧
              outline.decl.name = subject.outline.decl.name ∧
              outline.constructor = some ctor' ∧ outline.factory = some factory' ∧
              (ctor'.params.map (·.name) =
                  ctor.params.map (·.name) ++ draft.bindings.map (·.param) ↔
                ∀ param ∈ ctor.params, ¬ EndsInComment param.text.toList) ∧
              (factory'.arguments = factory.arguments ++
                  draft.bindings.map (fetchExpression factory.containerVar ·.serviceId) ↔
                ∀ argument ∈ factory.arguments, ¬ EndsInComment argument.toList)) := by
  obtain ⟨subject, draft, edits, hsubject, hdraft, hedits, -, rfl⟩ := refactor_eq_ok_iff.mp h
  refine ⟨subject, draft, edits, hsubject, hdraft, hedits, fun hmerge => ?_⟩
  have hbindings : draft.bindings ≠ [] := by
    intro hnil
    rw [(Draft.fits_of hdraft).keep (isEmpty_iff.mpr hnil)] at hmerge
    cases hmerge
  have haligns := (Draft.fits_of hdraft).aligns hbindings
  rw [hmerge] at haligns
  cases haligns with
  | @extendBoth ctor factory hctor hfactory keyword arguments comma returnLine returnEndLine hshape
      hlength =>
    have harguments : factory.arguments = arguments := by rw [Factory.arguments, hshape]
    refine ⟨ctor, factory, hctor, hfactory, harguments ▸ hlength,
      fun layout hcovers hinscribed hparams hbalanced => ?_⟩
    have hknown := Draft.extending_of hsubject hindent hreturn hmerge hbindings hctor hfactory hinscribed
      hparams hbalanced
    obtain ⟨hsource, n, houtline⟩ := Request.subject_spec hsubject
    obtain ⟨m, outline, hfound, hname, ⟨ctor', hctor', hmerged⟩, factory', hfactory', hmade⟩ :=
      layout.ofDeclaration_apply hknown hsource houtline hcovers hreturn hreturn'
    refine ⟨m, outline, ctor', factory', hfound, hname, hctor', hfactory',
      hmerged.order_iff hknown.params hknown.breaks hbindings hinscribed,
      hmade.order_iff hknown.arguments (by simpa using hbindings) ?_⟩
    simpa using fun binding hbinding => (hinscribed binding hbinding).argument

/-- A class whose only argument ends in a line comment. -/
def commentedLast : Request where
  text := "<?php
class A \x7b
  public function __construct($a) \x7b\x7d
  public static function create($c) \x7b
    return new self(
      1 // one
    );
  \x7d
\x7d
"
  role := .baseClass
  services := ["m"]

/-- The edits that inject a service into it: a property behind the class brace, the constructor and
the return statement. -/
def commentedLastEdits : List Edit :=
  [ .insert "Add $m" 1 9 "\n  /**\n   * The m.\n   *\n   * @var object\n   */\n  protected $m;\n",
    .replaceLines "Inject services through the constructor" 2 2 36
      "  public function __construct($a, $m) \x7b\n    $this->m = $m;\n  \x7d",
    .replaceLines "Pass services from create()" 4 6 6
      "    return new self(\n      1 // one,\n      $c->get('m')\n    );" ]

/-- Its constructor. -/
def commentedLastConstructor : WrittenMethod where
  front := [' ', ' '] ++ (publicWord ++ (functionWord ++ constructName))
  params := ['$', 'a']
  signature := [' ']
  body := []
  back := []

/-- Its factory. -/
def commentedLastFactory : WrittenMethod where
  front := [' ', ' '] ++ (factoryWords ++ (functionWord ++ createName))
  params := ['$', 'c']
  signature := [' ']
  body := "\n    return new self(\n      1 // one\n    );\n  ".toList
  back := []

theorem sound_commentedLast :
    commentedLastConstructor.Sound ⟨publicWord, String.ofList constructName, 29⟩ ∧
      commentedLastFactory.Sound ⟨factoryWords, String.ofList createName, 31⟩ := by
  refine ⟨⟨startsMethod_construct (by decide) (by decide), ⟨?_, ?_⟩, ?_, .blank (by decide), ?_, ⟨?_, ?_⟩,
    ⟨?_, ?_⟩, ?_⟩, startsMethod_create (by decide) (by decide), ⟨?_, ?_⟩, ?_, .blank (by decide), ?_,
    ⟨?_, ?_⟩, ⟨?_, ?_⟩, ?_⟩
  all_goals decide +kernel

/-- The parameters come in order. The two arguments do not: the comma between them is in the
comment. -/
theorem misordered_commentedLast :
    ∃ batch n outline ctor factory, refactor { directory := {} } commentedLast = .ok batch ∧
      Outline.ofDeclaration (Source.ofText (batch.apply commentedLast.text)) n = some outline ∧
      outline.constructor = some ctor ∧ outline.factory = some factory ∧
      ctor.params.map (·.name) = ["a", "m"] ∧ factory.arguments ≠ ["1 // one", "$c->get('m')"] := by
  have hread : commentedLast.drafts { directory := {} } (fun subject draft edits =>
      edits = commentedLastEdits ∧ draft.plan = ⟨.merge, .merge⟩ ∧
        draft.bindings = [⟨"m", "m", "m", none, "object", "m", none, false, false⟩] ∧
        draft.importNames subject [] = [] ∧ subject.outline.decl.line = 1 ∧
        subject.outline.decl.openBraceLine = 1 ∧ subject.outline.decl.closeBraceLine = 8 ∧
        fieldSeam subject draft.bindings = none ∧
        fieldEdit subject draft.bindings = commentedLastEdits[0]? ∧
        draft.constructorPart subject = commentedLastEdits[1]? ∧
        (afterLastSemicolon (subject.source.line 6)).toList = [] ∧
        (∃ ctor ∈ subject.outline.constructor, ctor.params = [⟨"a", none, false, "$a"⟩] ∧
          ctor.moved 0 = (Constructor.ofLayout (.written commentedLastConstructor.lines)
            sound_commentedLast.1.layout none).moved 2 ∧ ctor.leadingLine = 2 ∧
          Render.mergedDoc subject.style subject.source ctor draft.bindings = [] ∧
          Render.keptBody subject.style ctor (patchedBody ctor (draft.patches subject.outline)) = []) ∧
        ∃ factory ∈ subject.outline.factory, factory.containerVar = "c" ∧
          factory.shape = .newStatic "self" ["1 // one"] false 4 6 ∧
          mergedFactory subject factory draft.bindings = commentedLastEdits[2]?) = true := by
    decide +kernel
  obtain ⟨subject, draft, edits, hsubject, hdraft, hedits, hbatch, hread⟩ := Request.of_drafts hread
  obtain ⟨rfl, hmerge, hbindings, hnames, hline, hopen, hclose, hseam, hfield, hpart, htail,
    ⟨ctor, hctor, hparams, hmoved, hleading, hdoc, hbody⟩, factory, hfactory, hvar, hshape, hmade⟩ :=
    decide_eq_true_eq.mp hread
  have hreturn' : '\r' ∉ ((Batch.assemble commentedLastEdits).apply commentedLast.text).toList := by
    rw [Batch.assemble_of_ascending (by decide +kernel) (by decide +kernel)]
    decide +kernel
  obtain ⟨subject', draft', edits', hsubject', hdraft', hedits', horder⟩ :=
    refactor_order_iff hbatch (by decide) (by decide +kernel) hreturn'
  cases hsubject.symm.trans hsubject'
  cases hdraft.symm.trans hdraft'
  cases hedits.symm.trans hedits'
  obtain ⟨ctor', factory', hctor', hfactory', -, hiff⟩ := horder hmerge
  cases hctor.symm.trans hctor'
  cases hfactory.symm.trans hfactory'
  have harguments : factory.arguments = ["1 // one"] := by rw [Factory.arguments, hshape]
  have hconstructs : draft.Constructs subject ctor 2 [] commentedLastConstructor :=
    { read := ⟨_, sound_commentedLast.1, by decide +kernel, hmoved⟩
      leading := hleading
      docs := .nil
      comment := by rw [hdoc]; exact .nil
      body := by rw [hbody]; exact ⟨forall_mem_nil _, rfl, rfl⟩ }
  have hcreates : Draft.Creates subject factory 3 commentedLastFactory [[]]
      ["    return new self(".toList, "      1 // one".toList, "    );".toList] [' ', ' '] :=
    { read := ⟨_, sound_commentedLast.2, by decide +kernel, "self", false,
        by rw [harguments]; decide +kernel, by rw [hshape]; decide +kernel⟩
      body := by decide +kernel
      starts := by decide +kernel
      returns := ⟨by simp, by decide +kernel, by decide +kernel, by decide +kernel⟩
      tail := by
        rw [show 3 + ((commentedLastFactory.heads [[]]).length + _ - 1) = 6 by decide +kernel, htail]
        exact ⟨rfl, rfl⟩ }
  let layout : draft.Layout subject ctor factory (draft.importNames subject []) commentedLast.text :=
    { above := ["<?php".toList]
      below := []
      header := ["class A \x7b".toList]
      body := [] ++ commentedLastConstructor.lines ++ (commentedLastFactory.lines ++ [])
      tail := ['}', '\n']
      brace := [commentedLastEdits[0]]
      edits := [commentedLastEdits[1]] ++ ([commentedLastEdits[2]] ++ [])
      text_eq := by decide +kernel
      lines := by decide +kernel
      above_code := by decide +kernel
      below_code := rfl
      header_code := by decide +kernel
      line_eq := hline
      openBrace := by rw [hopen]; rfl
      closeBrace := by rw [hclose]; decide +kernel
      imports := by rw [hnames]; exact fun edit hedit => absurd hedit (Option.not_mem_none edit)
      classes := by rw [hnames]; exact forall_mem_nil _
      brace_eq := by rw [hseam, hfield]; rfl
      sections := .cons (.constructor hconstructs hpart) (.cons (.factory hcreates hmade) (.nil _)) }
  have hall : layout.allEdits = commentedLastEdits := by
    show (importEdit subject (draft.importNames subject [])).toList ++ commentedLastEdits = _
    rw [hnames]
    rfl
  have hinscribed : ∀ binding ∈ draft.bindings, binding.Inscribed factory.containerVar := by
    rw [hbindings, hvar]
    refine forall_mem_singleton.mpr ⟨⟨⟨⟨?_, ?_, ?_, ?_⟩, ?_⟩, ?_⟩, ?_, ⟨⟨⟨?_, ?_, ?_, ?_⟩, ?_⟩, ?_⟩, fun _ =>
      ⟨?_, ?_, ?_, ?_, ?_, ?_, ?_⟩⟩
    all_goals decide +kernel
  obtain ⟨n, outline, read, made, hfound, -, hread, hmade, hparamsIff, hargumentsIff⟩ := hiff layout
    (fun edit => iff_of_eq (congrArg (edit ∈ ·) hall.symm)) hinscribed (by rw [hparams]; decide +kernel)
    (by rw [harguments]; decide +kernel)
  refine ⟨_, n, outline, read, made, hbatch, hfound, hread, hmade, ?_, fun horder => ?_⟩
  · rw [hparamsIff.mpr (by rw [hparams]; decide +kernel), hparams, hbindings]
    rfl
  · rw [harguments, hbindings, hvar] at hargumentsIff
    exact absurd (hargumentsIff.mp horder) (by decide +kernel)

end ServiceInjection
