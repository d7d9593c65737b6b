import ServiceInjection.Proofs.Refactor.Bindings
import ServiceInjection.Proofs.Wiring.MergedMethods

/-!
# Refactor.Kept

What a refactoring keeps of the methods that it extends, if they are written from all of
their text: all of it, up to blanks and replaced calls. A comment behind the last comma of
the parameters of a constructor, or beside one of its braces, is lost, and so is a statement
in front of the return statement of a factory on its line.
-/

namespace ServiceInjection

open Text

/-- The calls that a draft replaces are found in the source, in the order of the text. -/
theorem Draft.Fits.holding {draft : Draft} {subject : Subject} (hfits : draft.Fits subject)
    {text : String} (hsource : subject.source = Source.ofText text) :
    subject.source.Holding draft.replacements := by
  have hcalls := hfits.calls.trans List.filter_sublist
  rw [hsource] at hcalls ⊢
  exact Source.holding_of_sublist hcalls

/-- A batch holds an edit with the effect of each one that it is assembled from. -/
theorem Batch.Emits.exists_mem {batch : Batch} {edit : Edit} (h : batch.Emits edit) :
    ∃ kept ∈ batch.edits, kept.range = edit.range ∧ kept.text = edit.text := by
  obtain ⟨kept, hkept, hsame⟩ := h
  simp only [Edit.sameEffect, Bool.and_eq_true, beq_iff_eq] at hsame
  exact ⟨kept, hkept, hsame⟩

/-- A constructor that is extended is replaced. -/
theorem Draft.exists_mergedConstructor {draft : Draft} {subject : Subject}
    {knownInterfaces : List String} {edits : List Edit} {ctor : Constructor}
    (hbindings : draft.bindings ≠ []) (hedits : draft.edits subject knownInterfaces = .ok edits)
    (hmerge : draft.plan.constructor = .merge) (hctor : subject.outline.constructor = some ctor) :
    ∃ edit ∈ (Batch.assemble edits).edits,
      edit.range = subject.rangeOf ⟨ctor.leadingLine, ctor.endLine⟩ ∧
      edit.text = Render.mergedConstructor subject.style subject.source ctor draft.bindings
        (patchedBody ctor (draft.patches subject.outline)) := by
  refine (@Batch.emits_assemble edits (.replaceLines "Inject services through the constructor"
    ctor.leadingLine ctor.endLine (subject.lineEnd ctor.endLine) _)
    (mem_edits hbindings hedits (.inr ?_))).exists_mem
  rw [constructorPart, constructorEdit, hmerge, hctor]
  rfl

/-- **Kept constructors.** A refactoring that extends the constructor of a class replaces
its lines, from the doc comment to the closing brace. The new text has the characters of
the old lines in their order, blanks aside and with the calls in the body replaced, if the
constructor is written from all of its text. -/
theorem refactor_keepsConstructor {knowledge : Knowledge} {request : Request} {batch : Batch}
    (h : refactor knowledge request = .ok batch) :
    ∃ subject draft, request.subject knowledge.options = .ok subject ∧
      Draft.of knowledge request.services subject = .ok draft ∧
      (draft.plan.constructor = .merge →
        ∃ ctor edit, subject.outline.constructor = some ctor ∧ edit ∈ batch.edits ∧
          edit.range = subject.rangeOf ⟨ctor.leadingLine, ctor.endLine⟩ ∧
          (∃ layout, ctor.ReadFrom subject.source layout) ∧
          ∀ layout, ctor.ReadFrom subject.source layout →
            ctor.Whole subject.source layout (draft.patches subject.outline) →
            (ink (subject.source.rewritten
              (layout.sites subject.source (draft.patches subject.outline))
              ctor.leadingLine ctor.endLine)).Sublist (ink edit.text.toList)) := by
  obtain ⟨subject, draft, edits, hsubject, hdraft, hedits, -, rfl⟩ := refactor_eq_ok_iff.mp h
  refine ⟨subject, draft, hsubject, hdraft, fun hmerge => ?_⟩
  obtain ⟨hsource, n, houtline⟩ := Request.subject_spec hsubject
  have hfits := Draft.fits_of hdraft
  have hbindings : draft.bindings ≠ [] := by
    intro hnil
    rw [hfits.keep (List.isEmpty_iff.mpr hnil)] at hmerge
    cases hmerge
  obtain ⟨ctor, hctor⟩ : ∃ ctor, subject.outline.constructor = some ctor := by
    rw [(hfits.aligns hbindings).plan_eq] at hmerge
    refine Option.ne_none_iff_exists'.mp fun hnone => ?_
    cases hassigns : subject.outline.assignsInstance <;> simp [hnone, hassigns] at hmerge
  obtain ⟨kept, hkept, hrange, htext⟩ :=
    Draft.exists_mergedConstructor hbindings hedits hmerge hctor
  refine ⟨ctor, kept, hctor, hkept, hrange, (Outline.sourced houtline).1 ctor hctor,
    fun layout hread hwhole => ?_⟩
  rw [htext]
  exact mergedConstructor_keeps subject.style hread hwhole hbindings ((hfits.holding hsource).filter _)

/-- A class whose constructor has a doc comment, comments among its parameters and in its
body, and a call. -/
def documentedConstructor : Request where
  text := "<?php
class Page \x7b
  /** Builds. */
  function __construct(
    $a, // first
    $b,
  ) \x7b
    // send
    \\Drupal::service('mailer')->send();
  \x7d
  static function create($c) \x7b
    return new static(1, 2);
  \x7d
\x7d
"
  role := .baseClass

/-- The lines of that constructor, with the call replaced. -/
def documentedLines : String := "/** Builds. */
  function __construct(
    $a, // first
    $b,
  ) \x7b
    // send
    $mailer->send();
  \x7d"

theorem keepsConstructor_documented :
    ∃ batch edit, refactor { directory := {} } documentedConstructor = .ok batch ∧
      edit ∈ batch.edits ∧ edit.range = ⟨⟨2, 0⟩, ⟨9, 3⟩⟩ ∧
      (ink documentedLines.toList).Sublist (ink edit.text.toList) := by
  have hread : documentedConstructor.drafts { directory := {} } (fun subject draft _ =>
      draft.plan.constructor = .merge ∧
        ∃ ctor ∈ subject.outline.constructor, ∃ head ∈ MethodHead.of? (subject.source.code 3),
          ∃ layout ∈ MethodLayout.at? subject.source ⟨3, head.paren⟩,
            ctor = Constructor.ofLayout subject.source layout ctor.doc ∧
            ctor.doc = some ⟨2, 2⟩ ∧ 2 < layout.paramsOpen.line ∧
            startsWith "/**" (trimStart (subject.source.raw 2)) = true ∧
            subject.rangeOf ⟨ctor.leadingLine, ctor.endLine⟩ = ⟨⟨2, 0⟩, ⟨9, 3⟩⟩ ∧
            ctor.Whole subject.source layout (draft.patches subject.outline) ∧
            ink (subject.source.rewritten
              (layout.sites subject.source (draft.patches subject.outline))
              ctor.leadingLine ctor.endLine) = ink documentedLines.toList) = true := by
    decide +kernel
  obtain ⟨subject, draft, edits, hsubject, hdraft, -, hbatch, hread⟩ := Request.of_drafts hread
  obtain ⟨hmerge, ctor, hctor, head, hhead, layout, hlayout, heq, hdoc, hbelow, hopens, hrange,
    hwhole, hink⟩ := decide_eq_true_eq.mp hread
  obtain ⟨subject', draft', hsubject', hdraft', hkeeps⟩ := refactor_keepsConstructor hbatch
  cases hsubject.symm.trans hsubject'
  cases hdraft.symm.trans hdraft'
  obtain ⟨ctor', edit, hctor', hedit, hrange', -, hsublist⟩ := hkeeps hmerge
  cases hctor.symm.trans hctor'
  have hspan : ∀ span ∈ ctor.doc, span.Documents subject.source layout.paramsOpen.line := by
    intro span hspan
    cases hdoc.symm.trans hspan
    exact ⟨Nat.le_refl _, hbelow, hopens⟩
  rw [← hink]
  exact ⟨_, edit, hbatch, hedit, hrange'.trans hrange,
    hsublist layout ⟨⟨3, head, hhead, hlayout⟩, heq, hspan⟩ hwhole⟩

/-- A class whose constructor has comments behind the parameters and beside the braces. -/
def commentedBraces : Request where
  text := "<?php
class Page \x7b
  function __construct(
    $a, // first
  ) \x7b // open
  \x7d // close
  static function create($c) \x7b
    return new static(1);
  \x7d
\x7d
"
  role := .baseClass
  services := ["mailer"]

/-- All three comments are lost. -/
theorem loses_commentedBraces :
    ∃ batch edit, refactor { directory := {} } commentedBraces = .ok batch ∧
      edit ∈ batch.edits ∧ edit.range = ⟨⟨2, 0⟩, ⟨5, 12⟩⟩ ∧ '/' ∉ edit.text.toList := by
  have hread : commentedBraces.drafts { directory := {} } (fun _ _ edits =>
      ∃ edit ∈ edits, edit.range = ⟨⟨2, 0⟩, ⟨5, 12⟩⟩ ∧ '/' ∉ edit.text.toList) = true := by
    decide +kernel
  obtain ⟨-, -, edits, -, -, -, hbatch, hread⟩ := Request.of_drafts hread
  obtain ⟨edit, hedit, hrange, hlost⟩ := decide_eq_true_eq.mp hread
  obtain ⟨kept, hkept, hsame, htext⟩ := (Batch.emits_assemble hedit).exists_mem
  exact ⟨_, kept, hbatch, hkept, hsame.trans hrange, htext ▸ hlost⟩

/-- A return statement that is extended is replaced. -/
theorem Draft.exists_mergedFactory {draft : Draft} {subject : Subject} {knownInterfaces : List String}
    {edits : List Edit} {factory : Factory} {keyword : String} {arguments : List String} {comma : Bool}
    {returnLine returnEndLine : Nat} (hbindings : draft.bindings ≠ [])
    (h : draft.edits subject knownInterfaces = .ok edits) (hmerge : draft.plan.factory = .merge)
    (hfactory : subject.outline.factory = some factory)
    (hshape : factory.shape = .newStatic keyword arguments comma returnLine returnEndLine) :
    ∃ edit ∈ (Batch.assemble edits).edits,
      edit.range = subject.rangeOf ⟨returnLine, returnEndLine⟩ ∧
      edit.text = Render.returnNew (subject.indentOf returnLine) subject.style.unit keyword
        (factory.arguments ++ draft.bindings.map (fetchExpression factory.containerVar ·.serviceId))
        comma ++ afterLastSemicolon (subject.source.line returnEndLine) := by
  have harguments : factory.arguments = arguments := by rw [Factory.arguments, hshape]
  rw [edits_eq_ok_iff, if_neg hbindings] at h
  obtain ⟨factory', hfactory', rfl⟩ := h
  simp only [factoryEdit, hmerge, hfactory, Option.bind_some, mergedFactory, hshape,
    ← harguments] at hfactory'
  cases hfactory'
  exact (@Batch.emits_assemble _ (.replaceLines "Pass services from create()" returnLine
    returnEndLine (subject.lineEnd returnEndLine) _) (by simp [wired])).exists_mem

/-- **Kept return statements.** A refactoring that extends a factory which returns a new
object replaces the lines of the return statement. The new text has the characters of the
old lines in their order, blanks aside, if the statement is all that stands on them up to
its semicolon. -/
theorem refactor_keepsFactory {knowledge : Knowledge} {request : Request} {batch : Batch}
    (h : refactor knowledge request = .ok batch) :
    ∃ subject draft, request.subject knowledge.options = .ok subject ∧
      Draft.of knowledge request.services subject = .ok draft ∧
      (draft.plan.factory = .merge → ∀ factory ∈ subject.outline.factory,
        (∀ keyword arguments comma returnLine returnEndLine,
          factory.shape = .newStatic keyword arguments comma returnLine returnEndLine →
          ∃ opening closing, factory.Returns subject.source keyword opening closing) ∧
        ∀ keyword opening closing, factory.Returns subject.source keyword opening closing →
          ∃ edit ∈ batch.edits, edit.range = subject.rangeOf ⟨opening.line, closing.line⟩ ∧
            (ReturnWhole subject.source keyword opening closing →
              ((Source.span opening.line closing.line).flatMap
                fun n => ink (subject.source.raw n)).Sublist (ink edit.text.toList))) := by
  obtain ⟨subject, draft, edits, hsubject, hdraft, hedits, -, rfl⟩ := refactor_eq_ok_iff.mp h
  refine ⟨subject, draft, hsubject, hdraft, fun hmerge factory hfactory => ?_⟩
  obtain ⟨-, n, houtline⟩ := Request.subject_spec hsubject
  have hbindings : draft.bindings ≠ [] := by
    intro hnil
    rw [(Draft.fits_of hdraft).keep (List.isEmpty_iff.mpr hnil)] at hmerge
    cases hmerge
  refine ⟨fun keyword arguments comma returnLine returnEndLine hshape => ?_,
    fun keyword opening closing hreturns => ?_⟩
  · obtain ⟨layout, -, hread, -⟩ := (Outline.sourced houtline).2 factory hfactory
    rw [hread] at hshape ⊢
    exact Factory.returns_ofLayout hshape
  · obtain ⟨comma, hshape⟩ := hreturns.shape
    obtain ⟨kept, hkept, hrange, htext⟩ :=
      Draft.exists_mergedFactory hbindings hedits hmerge hfactory hshape
    refine ⟨kept, hkept, hrange, fun hwhole => ?_⟩
    rw [htext]
    exact mergedFactory_keeps _ _ comma hreturns hwhole (by simpa using hbindings)

/-- A class whose factory has comments among the arguments and behind the statement. -/
def commentedReturn : Request where
  text := "<?php
class Page \x7b
  function __construct($a, $b) \x7b
  \x7d
  static function create($c) \x7b
    return new static(
      1, // first
      /* second */ 2
    ); // done
  \x7d
\x7d
"
  role := .baseClass
  services := ["mailer"]

/-- The lines of that statement. -/
def commentedReturnLines : String := "return new static(
      1, // first
      /* second */ 2
    ); // done"

theorem keepsFactory_commentedReturn :
    ∃ batch edit, refactor { directory := {} } commentedReturn = .ok batch ∧
      edit ∈ batch.edits ∧ edit.range = ⟨⟨5, 0⟩, ⟨8, 14⟩⟩ ∧
      (ink commentedReturnLines.toList).Sublist (ink edit.text.toList) := by
  have hread : commentedReturn.drafts { directory := {} } (fun subject draft _ =>
      draft.plan.factory = .merge ∧
        ∃ factory ∈ subject.outline.factory,
          subject.source.code 5 = "    return new static(".toList ∧
          subject.source.matchingClose ⟨5, 21⟩ '(' ')' = some ⟨8, 4⟩ ∧
          factory.shape = .newStatic "static"
            ((subject.source.entriesBetween ⟨5, 21⟩ ⟨8, 4⟩).entries.map (String.ofList ·.text))
            false 5 8 ∧
          subject.rangeOf ⟨5, 8⟩ = ⟨⟨5, 0⟩, ⟨8, 14⟩⟩ ∧
          ReturnWhole subject.source "static" ⟨5, 21⟩ ⟨8, 4⟩ ∧
          ((Source.span 5 8).flatMap fun n => ink (subject.source.raw n)) =
            ink commentedReturnLines.toList) = true := by
    decide +kernel
  obtain ⟨subject, draft, edits, hsubject, hdraft, -, hbatch, hread⟩ := Request.of_drafts hread
  obtain ⟨hmerge, factory, hfactory, hcode, hclose, hshape, hrange, hwhole, hink⟩ :=
    decide_eq_true_eq.mp hread
  obtain ⟨subject', draft', hsubject', hdraft', hkeeps⟩ := refactor_keepsFactory hbatch
  cases hsubject.symm.trans hsubject'
  cases hdraft.symm.trans hdraft'
  have hholds : subject.source.Holds ⟨5, 21⟩ '(' := by
    rw [Source.Holds, hcode]
    decide
  obtain ⟨edit, hedit, hsame, hsublist⟩ := (hkeeps hmerge factory hfactory).2 "static" ⟨5, 21⟩
    ⟨8, 4⟩ ⟨hholds, hclose, false, hshape⟩
  rw [← hink]
  exact ⟨_, edit, hbatch, hedit, hsame.trans hrange, hsublist hwhole⟩

/-- A class whose factory has another statement on the line of its return statement. -/
def sharedReturn : Request where
  text := "<?php
class Page \x7b
  function __construct($a) \x7b
  \x7d
  static function create($c) \x7b
    $x = 1; return new static($x); // done
  \x7d
\x7d
"
  role := .baseClass
  services := ["mailer"]

/-- The other statement is lost. -/
theorem loses_sharedReturn :
    ∃ batch edit, refactor { directory := {} } sharedReturn = .ok batch ∧
      edit ∈ batch.edits ∧ edit.range = ⟨⟨5, 0⟩, ⟨5, 42⟩⟩ ∧
      ¬ (ink "$x = 1; return new static($x); // done".toList).Sublist (ink edit.text.toList) := by
  have hread : sharedReturn.drafts { directory := {} } (fun _ _ edits =>
      ∃ edit ∈ edits, edit.range = ⟨⟨5, 0⟩, ⟨5, 42⟩⟩ ∧ '=' ∉ edit.text.toList) = true := by
    decide +kernel
  obtain ⟨-, -, edits, -, -, -, hbatch, hread⟩ := Request.of_drafts hread
  obtain ⟨edit, hedit, hrange, hlost⟩ := decide_eq_true_eq.mp hread
  obtain ⟨kept, hkept, hsame, htext⟩ := (Batch.emits_assemble hedit).exists_mem
  refine ⟨_, kept, hbatch, hkept, hsame.trans hrange, fun hsublist => hlost ?_⟩
  rw [← htext]
  exact List.mem_of_mem_filter (hsublist.subset (by decide))

end ServiceInjection
