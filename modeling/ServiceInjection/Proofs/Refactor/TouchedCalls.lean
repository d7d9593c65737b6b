import ServiceInjection.Proofs.Call.Traced
import ServiceInjection.Proofs.Outline.MemberNames
import ServiceInjection.Proofs.Refactor.Bindings
import ServiceInjection.Proofs.Wiring.LooseCalls
import ServiceInjection.Proofs.Wiring.MergedMethods

/-!
# Refactor.TouchedCalls

A refactoring for services that the class receives already. Nothing is declared, imported or
wired up: the text keeps its lines and their ends, and each line has its calls replaced where
they stand (`Subject.Touches`). A call uses the property of its service or, on a line of the
constructor, its parameter. Lines do not tell where the constructor ends, so a call in
another method that shares a line with the constructor uses the parameter too
(`refactor_touches`).
-/

namespace ServiceInjection

open Text List

variable {n : Nat} {call : StaticCall} {text : String}

/-! ### Accessors -/

namespace StaticCall

/-- What follows the receiver of a call: the call of its accessor, if it has one. -/
def accessorText (call : StaticCall) : String :=
  match call.accessor with
  | some accessor => "->" ++ accessor.method ++ "(" ++ accessor.arguments ++ ")"
  | none => ""

theorem inline_accessors :
    ∀ entry ∈ Shortcut.all, ∀ method ∈ entry.accessor, '\n' ∉ method.toList := by
  decide

theorem shortcutCall_arguments {cs rest : List Char} {value : List Char × List Char}
    (h : shortcutCall cs = some (value, rest)) : value.2 ⊆ cs := by
  simp only [shortcutCall, Option.bind_eq_bind, Option.bind_eq_some_iff, Option.some.injEq,
    Prod.mk.injEq, Prod.exists] at h
  obtain ⟨afterClass, hclass, name, afterName, hname, arguments, hopen, behind, -, rfl, -⟩ := h
  obtain ⟨slash, -, hcs⟩ := drupalClass_eq_some hclass
  obtain ⟨hafterClass, -, -⟩ := word_eq_some hname
  intro c hc
  rw [hcs, hafterClass, literal_eq_some.mp hopen]
  simp [(List.takeWhile_prefix _).subset hc]

theorem inline_of_mem_shortcutCalls {line : Line} (hline : '\n' ∉ line.raw)
    (h : call ∈ shortcutCalls n line) : '\n' ∉ call.accessorText.toList := by
  obtain ⟨m, hm, hsome⟩ := mem_filterMap.mp h
  simp only [Option.bind_eq_bind, Option.bind_eq_some_iff] at hsome
  obtain ⟨_, -, entry, hentry, _, -, hsome⟩ := hsome
  cases hsome
  cases haccessor : entry.accessor with
  | none => simp [accessorText, ofMatch]
  | some method =>
    have hmethod := inline_accessors entry (mem_of_find?_eq_some hentry) method haccessor
    have harguments : '\n' ∉ trim m.value.2 := by
      obtain ⟨-, rest, hread, -⟩ := of_mem_allMatches hm
      obtain ⟨lead, tail, -, -, hvalue⟩ := exists_trim m.value.2
      refine fun hc => hline (mem_of_mem_drop (shortcutCall_arguments hread ?_))
      rw [hvalue]
      exact mem_append_right _ (mem_append_left _ hc)
    simp [accessorText, ofMatch, hmethod, harguments]

theorem accessor_of_mem_quotedCalls {recognize : List Char → Option (List Char × List Char)}
    {shape : CallShape} {line : Line} (h : call ∈ quotedCalls recognize shape n line) :
    call.accessor = none := by
  obtain ⟨m, -, hsome⟩ := mem_filterMap.mp h
  split at hsome
  · obtain ⟨id, -, rfl⟩ := Option.map_eq_some_iff.mp hsome
    rfl
  · cases hsome

/-- The call of an accessor stays on the line. -/
theorem inline_accessorText (h : call ∈ detect (Source.ofText text)) :
    '\n' ∉ call.accessorText.toList := by
  have h := orderCalls_subset (mem_detect_iff.mp h).2
  have hplain : call.accessor = none → '\n' ∉ call.accessorText.toList := fun hnone => by
    simp [accessorText, hnone]
  simp only [mem_append] at h
  rcases h with ((h | h) | h) | h
  · exact hplain (accessor_of_mem_quotedCalls h)
  · exact hplain (accessor_of_mem_quotedCalls h)
  · exact inline_of_mem_shortcutCalls (Source.isLine_raw text call.line).1 h
  · obtain ⟨m, -, ⟨-, -, id, -, hcall⟩, -⟩ := mem_variableCalls.mp h
    exact hplain (congrArg accessor hcall)

end StaticCall

/-! ### Receivers -/

/-- Whether a call is replaced by the property that holds its service. -/
def Replacement.UsesField (wiring : ExistingWiring) (site : Replacement) : Prop :=
  ∃ field ∈ wiring.fieldOf? site.call.serviceId,
    site.text = "$this->" ++ field ++ site.call.accessorText

/-- Whether a call is replaced by the constructor parameter that brings its service in. -/
def Replacement.UsesParam (wiring : ExistingWiring) (site : Replacement) : Prop :=
  ∃ param ∈ wiring.paramOf? site.call.serviceId, site.text = "$" ++ param ++ site.call.accessorText

/-- Whether a call is replaced by its parameter, if it stands on a line of the constructor and
there is one, and by its property otherwise. -/
def Replacement.Uses (outline : Outline) (wiring : ExistingWiring) (site : Replacement) : Prop :=
  if outline.inConstructor site.call.line = true ∧ (wiring.paramOf? site.call.serviceId).isSome then
    site.UsesParam wiring
  else site.UsesField wiring

section

variable {outline : Outline} {wiring : ExistingWiring} {bindings : List Binding} {call : StaticCall}
  {site : Replacement}

theorem replacementOf_eq_some (h : replacementOf outline wiring bindings call = some site) :
    site.call = call ∧ ∃ receiver, receiverOf outline wiring bindings call = some receiver ∧
      site.text = receiver ++ call.accessorText := by
  refine ⟨(Draft.replacementOf_spec h).1, ?_⟩
  unfold replacementOf at h
  split at h
  · cases h
  · obtain ⟨receiver, hreceiver, rfl⟩ := Option.map_eq_some_iff.mp h
    refine ⟨receiver, hreceiver, ?_⟩
    cases haccessor : call.accessor <;> simp [StaticCall.accessorText, haccessor, String.append_assoc]

theorem uses_of_replacementOf (h : replacementOf outline wiring [] call = some site) :
    site.Uses outline wiring := by
  obtain ⟨rfl, receiver, hreceiver, htext⟩ := replacementOf_eq_some h
  have hproperty : (wiring.fieldOf? site.call.serviceId).map ("$this->" ++ ·) = some receiver →
      site.UsesField wiring := by
    intro hsome
    obtain ⟨field, hfield, rfl⟩ := Option.map_eq_some_iff.mp hsome
    exact ⟨field, hfield, htext⟩
  simp only [receiverOf, find?_nil, Option.map_none, Option.none_or] at hreceiver
  split at hreceiver
  · rename_i hline
    split at hreceiver
    · cases hreceiver
    · cases hparam : wiring.paramOf? site.call.serviceId with
      | none =>
        rw [hparam] at hreceiver
        simpa [Replacement.Uses, hline, hparam] using hproperty hreceiver
      | some param =>
        rw [hparam] at hreceiver
        cases hreceiver
        simpa [Replacement.Uses, hline, hparam] using ⟨param, hparam, htext⟩
  · rename_i hline
    simpa [Replacement.Uses, hline] using hproperty hreceiver

theorem Replacement.Uses.field_or_param (h : site.Uses outline wiring) :
    site.UsesField wiring ∨ site.UsesParam wiring := by
  rw [Uses] at h
  split at h
  · exact .inr h
  · exact .inl h

/-- What uses a parameter does not use a property, since no name goes on with an arrow. -/
theorem Replacement.Uses.usesField_iff (h : site.Uses outline wiring)
    (hnames : ∀ entry ∈ wiring.params, IsName entry.2.toList) :
    site.UsesField wiring ↔
      (outline.inConstructor site.call.line = true → wiring.paramOf? site.call.serviceId = none) := by
  rw [Uses] at h
  split at h
  · rename_i huses
    obtain ⟨hline, hsome⟩ := huses
    refine iff_of_false ?_ fun hnone => ?_
    · rintro ⟨field, -, hfield⟩
      obtain ⟨param, hparam, htext⟩ := h
      have hcut := congrArg String.toList (htext.symm.trans hfield)
      simp only [String.toList_append, append_cancel_right_eq] at hcut
      have hdash : '-' ∈ param.toList := by
        rw [show param.toList = "this->".toList ++ field.toList from (cons.inj hcut).2]
        exact mem_append_left _ (by decide)
      exact absurd ((hnames _ (ExistingWiring.mem_of_entryFor hparam)).2 '-' hdash) (by decide)
    · rw [hnone hline] at hsome
      cases hsome
  · rename_i huses
    refine iff_of_true h fun hline => ?_
    simpa using fun hsome => huses ⟨hline, hsome⟩

end

/-! ### Touched lines -/

/-- The brackets of the constructor of a class. -/
def Outline.constructorLayout? (source : Source) (outline : Outline) : Option MethodLayout := do
  let ctor ← outline.constructor
  let head ← MethodHead.of? (source.code ctor.startLine)
  MethodLayout.at? source ⟨ctor.startLine, head.paren⟩

theorem Constructor.ReadFrom.constructorLayout? {source : Source} {outline : Outline}
    {ctor : Constructor} {layout : MethodLayout} (h : ctor.ReadFrom source layout)
    (hctor : outline.constructor = some ctor) : outline.constructorLayout? source = some layout := by
  obtain ⟨n, head, hhead, hlayout⟩ := h.starts
  have hline : ctor.startLine = n := by
    rw [h.eq]
    exact congrArg Spot.line (MethodLayout.spec hlayout).1
  rw [Outline.constructorLayout?, hctor]
  simp [hline, hhead, hlayout]

/-- Whether a call stands outside the constructor of a class. -/
def Subject.Outside (subject : Subject) (call : StaticCall) : Prop :=
  ∀ layout ∈ subject.outline.constructorLayout? subject.source,
    ¬ (subject.source.position layout.paramsOpen ≤ ⟨call.line, call.startColumn⟩ ∧
      ⟨call.line, call.endColumn⟩ ≤ subject.source.position layout.bodyClose)

instance (subject : Subject) (call : StaticCall) : Decidable (subject.Outside call) :=
  inferInstanceAs (Decidable (∀ _ ∈ _, _))

/-- What a refactoring for wired services makes of a text: calls of the class are replaced
where they stand, and nothing else changes. A call that stays has nothing to be replaced
by. -/
structure Subject.Touches (subject : Subject) (wiring : ExistingWiring) (requested : List String)
    (old new : List Char) (sites : List Replacement) : Prop where
  calls : (sites.map (·.call)).Sublist subject.calls
  wanted : ∀ site ∈ sites, site.call.serviceId ∈ requested
  left : ∀ call ∈ subject.calls, call.serviceId ∈ requested → call ∉ sites.map (·.call) →
    (subject.outline.staticMethodAt? call.line).isSome ∨
      receiverOf subject.outline wiring [] call = none
  length : (lines new).length = (lines old).length
  kept : ∀ n, (∀ site ∈ sites, site.call.line ≠ n) → (pieces new)[n]? = (pieces old)[n]?
  rewritten : pieces new = rewriteLines sites (pieces old)
  sited : SitedIn (pieces old) sites
  uses : ∀ site ∈ sites, site.Uses subject.outline wiring

theorem Replacement.inline {wiring : ExistingWiring} {site : Replacement}
    (hcall : site.call ∈ StaticCall.detect (Source.ofText text))
    (hfields : ∀ entry ∈ wiring.fields, IsName entry.2.toList)
    (hparams : ∀ entry ∈ wiring.params, IsName entry.2.toList)
    (h : site.UsesField wiring ∨ site.UsesParam wiring) :
    '\n' ∉ site.text.toList ∧ site.text.toList ≠ [] := by
  have haccessor := StaticCall.inline_accessorText hcall
  have hfeed : ∀ {name : List Char}, IsName name → '\n' ∉ name := fun hname hc =>
    absurd (hname.2 _ hc) (by decide)
  rcases h with ⟨field, hfield, htext⟩ | ⟨param, hparam, htext⟩
  · have hname := hfields _ (ExistingWiring.mem_of_entryFor hfield)
    simp [htext, haccessor, hfeed hname]
  · have hname := hparams _ (ExistingWiring.mem_of_entryFor hparam)
    simp [htext, haccessor, hfeed hname]

/-- Edits of calls in the order of the text are made from the last to the first. -/
theorem apply_assemble_edits {sites : List Replacement}
    (hcalls : (sites.map (·.call)).Sublist (StaticCall.detect (Source.ofText text))) :
    ((Batch.assemble (sites.map (·.edit))).apply text).toList =
      sites.foldr (fun site text => Batch.applyEdit text site.edit) text.toList := by
  have hholding := Source.holding_of_sublist hcalls
  have hapart : (sites.map (·.edit)).Pairwise
      fun a b => a.range.start ≤ b.range.start ∧ a.sameEffect b = false := by
    refine pairwise_map.mpr (hholding.ordered.imp_of_mem fun ha _ hbefore => Edit.apart_of_lt ?_)
    exact start_lt_of_before hbefore (hholding.found _ ha).columns.1
  rw [Batch.assemble_of_pairwise hapart, Batch.apply, String.toList_ofList, foldl_reverse,
    foldr_map]

theorem Draft.touches {knowledge : Knowledge} {services : List String} {subject : Subject}
    {draft : Draft} (hsource : subject.source = Source.ofText text)
    (houtline : Outline.ofDeclaration subject.source n = some subject.outline)
    (h : Draft.of knowledge services subject = .ok draft) (hbindings : draft.bindings = []) :
    subject.Touches (ExistingWiring.of knowledge.directory subject)
      (requestedIds knowledge services subject.calls) text.toList
      ((Batch.assemble (draft.replacements.map (·.edit))).apply text).toList draft.replacements := by
  obtain ⟨-, hwiring, hreplacements, -⟩ := parts_of h
  have hcalls := (fits_of h).calls
  have hdetected : (draft.replacements.map (·.call)).Sublist (StaticCall.detect (Source.ofText text)) :=
    hsource ▸ hcalls.trans filter_sublist
  obtain ⟨hfields, hparams⟩ := @ExistingWiring.isName_of _ _ knowledge.directory _ houtline
  rw [hbindings, hwiring] at hreplacements
  have huses : ∀ site ∈ draft.replacements,
      site.Uses subject.outline (ExistingWiring.of knowledge.directory subject) := by
    intro site hsite
    rw [hreplacements] at hsite
    obtain ⟨call, -, hsome⟩ := mem_filterMap.mp hsite
    exact uses_of_replacementOf hsome
  have hinline : ∀ site ∈ draft.replacements,
      '\n' ∉ site.text.toList ∧ site.text.toList ≠ [] := fun site hsite =>
    Replacement.inline (hdetected.subset (mem_map_of_mem hsite)) hfields hparams
      (huses site hsite).field_or_param
  have hsited := sitedIn_pieces hdetected fun site hsite => (hinline site hsite).1
  have hpieces := pieces_foldr_edit hsited
  rw [← apply_assemble_edits hdetected] at hpieces
  refine ⟨hcalls, fun site hsite => ?_, fun call hcall hid hleft => ?_,
    length_lines_of_pieces hsited (fun site hsite => (hinline site hsite).2) hpieces,
    fun m hm => ?_, hpieces, hsited, huses⟩
  · rw [hreplacements] at hsite
    obtain ⟨call, hcall, hsome⟩ := mem_filterMap.mp hsite
    rw [(replacementOf_spec hsome).1]
    simpa using (mem_filter.mp hcall).2
  · rw [← replacementOf_eq_none_iff]
    cases hsome : replacementOf subject.outline (ExistingWiring.of knowledge.directory subject) [] call with
    | none => rfl
    | some site =>
      refine absurd (mem_map.mpr ⟨site, ?_, (replacementOf_spec hsome).1⟩) hleft
      rw [hreplacements]
      exact mem_filterMap.mpr ⟨call, mem_filter.mpr ⟨hcall, by simpa using hid⟩, hsome⟩
  · have hnone : draft.replacements.filter (·.call.line == m) = [] :=
      filter_eq_nil_iff.mpr fun site hsite hline => hm site hsite (beq_iff_eq.mp hline)
    rw [hpieces, getElem?_rewriteLines, hnone]
    simp [rewriteFrom]

/-- **Wired services.** A refactoring for services that the class receives already replaces
calls where they stand and touches nothing else. All calls of a service that stand outside the
constructor use its property, exactly if none of those that share a line with the constructor
has a parameter for its service. -/
theorem refactor_touches {knowledge : Knowledge} {request : Request} {subject : Subject}
    {batch : Batch} (hsubject : request.subject knowledge.options = .ok subject)
    (hwired : ∀ id ∈ requestedIds knowledge request.services subject.calls,
      id ∈ (ExistingWiring.of knowledge.directory subject).ids)
    (h : refactor knowledge request = .ok batch) :
    (∀ ctor ∈ subject.outline.constructor,
      ∃ layout ∈ subject.outline.constructorLayout? subject.source,
        ctor.ReadFrom subject.source layout) ∧
    ∃ sites, sites ≠ [] ∧
      subject.Touches (ExistingWiring.of knowledge.directory subject)
        (requestedIds knowledge request.services subject.calls) request.text.toList
        (batch.apply request.text).toList sites ∧
      ((∀ site ∈ sites, subject.Outside site.call →
          site.UsesField (ExistingWiring.of knowledge.directory subject)) ↔
        ∀ site ∈ sites, subject.Outside site.call →
          subject.outline.inConstructor site.call.line = true →
          (ExistingWiring.of knowledge.directory subject).paramOf? site.call.serviceId = none) := by
  obtain ⟨subject', draft, edits, hsubject', hdraft, hedits, hne, rfl⟩ := refactor_eq_ok_iff.mp h
  cases hsubject.symm.trans hsubject'
  obtain ⟨hsource, n, houtline⟩ := Request.subject_spec hsubject
  have hbindings := (Draft.bindings_eq_nil_iff hdraft).mpr hwired
  obtain rfl := Except.ok.inj ((Draft.edits_of_nil hdraft hbindings _).symm.trans hedits)
  have htouches := Draft.touches hsource houtline hdraft hbindings
  refine ⟨fun ctor hctor => ?_, draft.replacements, fun hnil => hne (hnil ▸ rfl), htouches, ?_⟩
  · obtain ⟨layout, hread⟩ := (Outline.sourced houtline).1 ctor hctor
    exact ⟨layout, hread.constructorLayout? hctor, hread⟩
  · have hnames := (@ExistingWiring.isName_of _ _ knowledge.directory _ houtline).2
    exact forall₂_congr fun site hsite => imp_congr_right fun _ =>
      (htouches.uses site hsite).usesField_iff hnames

/-- A class that receives the mailer and fetches it once more in two methods. -/
def mailerTwice : Request where
  text := "<?php
class Page \x7b
  function __construct($m) \x7b
    $this->mailer = $m;
    \\Drupal::service('mailer')->ping();
  \x7d
  static function create($c) \x7b
    return new static($c->get('mailer'));
  \x7d
  function build() \x7b
    return \\Drupal::service('mailer');
  \x7d
\x7d
"
  role := .baseClass
  services := ["mailer"]

theorem touches_mailerTwice :
    ∃ subject batch sites, mailerTwice.subject {} = .ok subject ∧
      refactor { directory := {} } mailerTwice = .ok batch ∧
      subject.Touches (ExistingWiring.of {} subject) ["mailer"] mailerTwice.text.toList
        (batch.apply mailerTwice.text).toList sites ∧
      sites ≠ [] ∧ ∀ site ∈ sites, subject.Outside site.call →
        site.text = "$this->mailer" ++ site.call.accessorText := by
  have hread : (mailerTwice.subject {}).toOption.any (fun subject =>
      (refactor { directory := {} } mailerTwice).toOption.any fun _ =>
        requestedIds { directory := {} } mailerTwice.services subject.calls = ["mailer"] ∧
        "mailer" ∈ (ExistingWiring.of {} subject).ids ∧
        (ExistingWiring.of {} subject).fieldOf? "mailer" = some "mailer" ∧
        ∀ call ∈ subject.calls, subject.Outside call →
          subject.outline.inConstructor call.line = false) = true := by
    decide +kernel
  simp only [any_toOption_iff, decide_eq_true_eq] at hread
  obtain ⟨subject, hsubject, batch, hbatch, hids, hwired, hfield, hlines⟩ := hread
  have hwired : ∀ id ∈ requestedIds { directory := {} } mailerTwice.services subject.calls,
      id ∈ (ExistingWiring.of {} subject).ids := by
    rw [hids]
    exact forall_mem_singleton.mpr hwired
  obtain ⟨-, sites, hne, htouches, hiff⟩ :=
    @refactor_touches { directory := {} } mailerTwice subject batch hsubject hwired hbatch
  rw [hids] at htouches
  refine ⟨subject, batch, sites, hsubject, hbatch, htouches, hne, fun site hsite houtside => ?_⟩
  have hfields := hiff.mpr (fun site hsite houtside hline => by
    rw [hlines _ (htouches.calls.subset (mem_map_of_mem hsite)) houtside] at hline
    cases hline)
  obtain ⟨field, hsome, htext⟩ := hfields site hsite houtside
  rw [mem_singleton.mp (htouches.wanted site hsite), hfield] at hsome
  cases hsome
  exact htext

/-- A class with a method on the line of its constructor. -/
def sharedLine : Request where
  text := "<?php
class Page \x7b
  function __construct($m) \x7b $this->mailer = $m; \x7d function send() \x7b return \\Drupal::service('mailer'); \x7d
  static function create($c) \x7b
    return new static($c->get('mailer'));
  \x7d
  function build() \x7b
    return \\Drupal::service('mailer');
  \x7d
\x7d
"
  role := .baseClass
  services := ["mailer"]

/-- The method uses a parameter that it does not have. -/
theorem param_outside_sharedLine :
    (sharedLine.subject {}).toOption.any (fun subject =>
      "mailer" ∈ (ExistingWiring.of {} subject).ids ∧
      (Draft.of { directory := {} } sharedLine.services subject).toOption.any fun draft =>
        draft.bindings = [] ∧ draft.replacements.map (·.text) = ["$m", "$this->mailer"] ∧
        (∀ site ∈ draft.replacements, subject.Outside site.call) ∧
        (ExistingWiring.of {} subject).fieldOf? "mailer" = some "mailer") = true := by
  decide +kernel

end ServiceInjection
