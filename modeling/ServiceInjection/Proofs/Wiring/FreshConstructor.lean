import ServiceInjection.Proofs.Wiring.Rendered

/-!
# Wiring.FreshConstructor

New constructors, rendered and read. A new constructor has the parameters of its role and then
those of the bindings, on one line or on several, and a body that assigns the latter
(`freshConstructor_declares`).
-/

namespace ServiceInjection

open Text List

/-! ### Parameters -/

theorem Binding.Writable.slot {binding : Binding} (h : binding.Writable) : binding.slot.Declared := by
  refine ⟨h.param, binding.typeHint.map String.toList, fun cs hcs => ?_, ?_⟩
  · obtain ⟨hqualified, hnot⟩ := h.typeHint cs hcs
    refine ⟨hqualified, fun hmem => hnot ?_⟩
    simp only [paramModifiers, propertyModifiers, mem_cons, not_mem_nil, or_false] at hmem ⊢
    tauto
  · simp only [Binding.slot, Binding.declaration, h.promoted]
    cases binding.typeHint <;> simp [declText]

/-- The slots of a new constructor. -/
def freshSlots (conventions : Conventions) (bindings : List Binding) : List Slot :=
  conventions.leadingParams.map (·.slot) ++ bindings.map (·.slot)

theorem freshParams_eq (conventions : Conventions) (bindings : List Binding) :
    Render.freshParams conventions bindings = (freshSlots conventions bindings).map (·.declaration) := by
  simp [Render.freshParams, freshSlots, Binding.slot, LeadingParam.slot, Function.comp_def]

theorem Slot.Declared.of_mem_freshSlots {conventions : Conventions} {bindings : List Binding}
    (hconventions : conventions.Writable) (h : ∀ binding ∈ bindings, binding.Writable) :
    ∀ slot ∈ freshSlots conventions bindings, slot.Declared := by
  refine forall_mem_append.mpr ⟨fun slot hslot => ?_, fun slot hslot => ?_⟩
  · obtain ⟨param, hparam, rfl⟩ := mem_map.mp hslot
    exact (hconventions.leading param hparam).declared
  · obtain ⟨binding, hbinding, rfl⟩ := mem_map.mp hslot
    exact (h binding hbinding).slot

theorem Members.constructor_moved {members : Members} {ctor : Constructor}
    (h : members.constructor = some ctor) (k : Nat) :
    (members.moved k).constructor = some (ctor.moved k) := by
  rw [Members.moved, h]
  rfl

theorem Members.factory_moved {members : Members} {factory : Factory}
    (h : members.factory = some factory) (k : Nat) :
    (members.moved k).factory = some (factory.moved k) := by
  rw [Members.moved, h]
  rfl

/-- What a written constructor adds. -/
theorem WrittenMethod.Sound.added_constructor {method : WrittenMethod} {head : MethodHead}
    (h : method.Sound head) (hname : sameName head.name "__construct" = true)
    (hparams : ∀ param ∈ (Constructor.ofLayout (.written method.lines) h.layout none).params,
      param.promoted = false) :
    h.added.fields = [] ∧ h.added.factory = none ∧
      h.added.constructor = some (Constructor.ofLayout (.written method.lines) h.layout none) := by
  have hpromoted : MemberScan.promotedFields (Constructor.ofLayout (.written method.lines) h.layout none) =
      [] := by
    rw [MemberScan.promotedFields, filter_eq_nil_iff.mpr (by simpa using hparams)]
    rfl
  simp [WrittenMethod.Sound.added, MemberScan.addMethod, hname, hpromoted]

namespace Render

variable {style : CodeStyle} {conventions : Conventions} {bindings : List Binding}

theorem isDoc_paramDoc (hstyle : style.Writable) {docType variableText description : String}
    (hdocType : IsDoc docType) (hvariable : IsDoc variableText) (hdescription : IsDoc description) :
    ∀ line ∈ paramDoc style.memberIndent docType variableText description, IsDoc line := by
  have hindent := hstyle.isDoc
  simp only [paramDoc, forall_mem_cons, not_mem_nil, false_implies, implies_true, and_true]
  refine ⟨?_, hindent.label (by decide) hdescription (by decide) (by decide)⟩
  refine ((hindent.label (by decide) hdocType (by decide) (by decide)).append (by decide)
    (.inr (by decide))).append hvariable (.inl ?_)
  rw [String.toList_append, getLast?_append]
  simp

/-- The comment in front of a new constructor, without the lines that open and close it. -/
def constructorDoc (style : CodeStyle) (className : String) (conventions : Conventions)
    (bindings : List Binding) : List String :=
  [ style.memberIndent ++ " * " ++ (if className.toList.contains '@' then "Constructs the object."
      else "Constructs a new " ++ className ++ " object."),
    style.memberIndent ++ " *" ] ++
  conventions.leadingParams.flatMap
    (fun param => paramDoc style.memberIndent param.docType param.expression param.description) ++
  bindingDocs style.memberIndent bindings

/-- The lines of the body of a new constructor. -/
def constructorBody (style : CodeStyle) (conventions : Conventions) (bindings : List Binding) :
    List String :=
  conventions.preamble.toList.map (style.bodyIndent ++ ·) ++ bindings.map (·.assignment style.bodyIndent)

theorem isDoc_constructorDoc (hstyle : style.Writable) {className : String}
    (hclass : IsName className.toList) (hconventions : conventions.Writable)
    (h : ∀ binding ∈ bindings, binding.Writable) :
    ∀ line ∈ constructorDoc style className conventions bindings, IsDoc line := by
  have hindent := hstyle.isDoc
  refine forall_mem_append.mpr ⟨forall_mem_append.mpr ⟨?_, ?_⟩, ?_⟩
  · simp only [forall_mem_cons, not_mem_nil, false_implies, implies_true, and_true]
    refine ⟨hindent.label (by decide) ?_ (by decide) (by decide), hindent.append (by decide) (.inr (by decide))⟩
    split
    · decide
    · exact (IsDoc.append (by decide) (.of_isName hclass) (.inl (by decide))).append (by decide)
        (.inr (by decide))
  · intro line hline
    obtain ⟨param, hparam, hline⟩ := mem_flatMap.mp hline
    have hwritable := hconventions.leading param hparam
    have hexpression : IsDoc param.expression := by
      have htext : param.expression = "$" ++ param.slot.name :=
        String.toList_inj.mp (by simp [hwritable.expression, declText])
      rw [htext]
      exact IsDoc.append (by decide) (.of_isName hwritable.declared.1) (.inl (by decide))
    exact isDoc_paramDoc hstyle hwritable.docType hexpression hwritable.description line hline
  · intro line hline
    obtain ⟨binding, hbinding, hline⟩ := mem_flatMap.mp hline
    have hwritable := h binding hbinding
    refine isDoc_paramDoc hstyle hwritable.docType ?_ ?_ line hline
    · exact IsDoc.append (by decide) (.of_isName hwritable.param) (.inl (by decide))
    · exact (IsDoc.append (by decide) hwritable.description (.inl (by decide))).append (by decide)
        (.inr (by decide))

theorem freshConstructor_eq (h : ∀ binding ∈ bindings, binding.Writable) (style : CodeStyle)
    (className : String) (conventions : Conventions) :
    freshConstructor style className conventions bindings = joinLines (
      ((style.memberIndent ++ "/**") :: (constructorDoc style className conventions bindings ++
        [style.memberIndent ++ " */"])) ++
      (signature style "public function __construct" (freshParams conventions bindings) ++
        (constructorBody style conventions bindings ++ [style.memberIndent ++ "\x7d"]))) := by
  have hall : bindings.filter (!·.promoted) = bindings :=
    filter_eq_self.mpr fun binding hbinding => by simp [(h binding hbinding).promoted]
  simp only [freshConstructor, hall, constructorDoc, constructorBody, append_assoc,
    cons_append, nil_append]

/-- The statement that stores a parameter is code without braces. -/
theorem codeBlock_assignment (hstyle : style.Writable) {binding : Binding}
    (hfield : IsName binding.field.toList) (hparam : IsName binding.param.toList) :
    IsLine (binding.assignment style.bodyIndent).toList ∧
      CodeBlock (binding.assignment style.bodyIndent).toList none := by
  have hname : ∀ {name : List Char}, IsName name → ∀ c ∈ name, IsInline c := fun h c hc =>
    (isFlat_of_isName h c hc).isInline
  have htext : assignText binding.field.toList binding.param.toList = "$this->".toList ++
      (binding.field.toList ++ (" = $".toList ++ (binding.param.toList ++ [';']))) := by
    simp [assignText]
  rw [toList_assignment, htext]
  refine codeBlock_inline hstyle.bodyIndent ?_
  simp only [forall_mem_append]
  exact ⟨by decide, hname hfield, by decide, hname hparam, by decide⟩

/-- The statements of a new constructor are code without braces. -/
theorem codeBlock_constructorBody (hstyle : style.Writable) (hconventions : conventions.Writable)
    (h : ∀ binding ∈ bindings, binding.Writable) :
    ∀ line ∈ (constructorBody style conventions bindings).map String.toList,
      IsLine line ∧ CodeBlock line none := by
  have hindent := hstyle.bodyIndent
  rw [constructorBody, map_append, map_map, map_map]
  refine forall_mem_append.mpr ⟨fun line hmem => ?_, fun line hmem => ?_⟩
  · obtain ⟨statement, hstatement, rfl⟩ := mem_map.mp hmem
    have hplain := hconventions.preamble statement (by simpa using hstatement)
    rw [Function.comp_apply, String.toList_append]
    exact codeBlock_inline hindent fun c hc => (hplain c hc).1
  · obtain ⟨binding, hbinding, rfl⟩ := mem_map.mp hmem
    exact codeBlock_assignment hstyle (h binding hbinding).field (h binding hbinding).param

/-- The parameters and lines of a new constructor with the given blanks in its signature. -/
def constructorLists (style : CodeStyle) (conventions : Conventions) (bindings : List Binding)
    (lead gap tail after : List Char) : WrittenMethod.Lists where
  front := style.memberIndent.toList ++ (publicWord ++ (functionWord ++ constructName))
  lead := lead
  gap := gap
  tail := tail
  after := after
  close := style.memberIndent.toList
  entries := (freshSlots conventions bindings).map (·.declaration.toList)
  lines := (constructorBody style conventions bindings).map String.toList

theorem writable_constructorLists (hstyle : style.Writable) (hconventions : conventions.Writable)
    (h : ∀ binding ∈ bindings, binding.Writable) (hne : bindings ≠ [])
    {lead gap tail after : List Char}
    (hgaps : IsGap lead ∧ IsGap gap ∧ IsGap tail ∧ IsGap after) :
    (constructorLists style conventions bindings lead gap tail after).Writable
      ⟨publicWord, String.ofList constructName,
        (style.memberIndent.toList ++ (publicWord ++ (functionWord ++ constructName))).length⟩ where
  starts := startsMethod_construct hstyle.memberIndent.1 hstyle.memberIndent.2.1
  no_return := by
    have hwords : '\r' ∉ publicWord ++ (functionWord ++ constructName) := by decide
    exact fun hmem => (mem_append.mp hmem).elim hstyle.memberIndent.2.2 hwords
  gaps := hgaps
  close := hstyle.memberIndent
  ne_nil := by
    show map _ _ ≠ []
    simp [freshSlots, hne]
  entries := fun entry hentry => by
    obtain ⟨slot, hslot, rfl⟩ := mem_map.mp hentry
    obtain ⟨hlistable, hends, -, hreturn⟩ :=
      (Slot.Declared.of_mem_freshSlots hconventions h slot hslot).listable
    exact ⟨hlistable, hends, hreturn⟩
  lines := codeBlock_constructorBody hstyle hconventions h

/-- The text of a new constructor: its comment and then its signature and lines. -/
theorem toList_freshConstructor (h : ∀ binding ∈ bindings, binding.Writable) (className : String)
    {lead gap tail after : List Char}
    (hsignature : joined ((signature style "public function __construct"
        (freshParams conventions bindings)).map String.toList) =
      (style.memberIndent.toList ++ "public function __construct".toList) ++ '(' ::
        ((lead ++ (listText gap ((freshParams conventions bindings).map String.toList) ++ tail)) ++
          ')' :: (after ++ ['{']))) :
    (freshConstructor style className conventions bindings).toList =
      joined (((style.memberIndent ++ "/**") :: (constructorDoc style className conventions bindings ++
        [style.memberIndent ++ " */"])).map String.toList) ++
        '\n' :: (WrittenMethod.ofLists
          (constructorLists style conventions bindings lead gap tail after)).text := by
  have hentries : (freshParams conventions bindings).map String.toList =
      (freshSlots conventions bindings).map (·.declaration.toList) := by
    rw [freshParams_eq, map_map]
    rfl
  rw [freshConstructor_eq h, toList_joinLines, map_append, joined_append (by simp),
    unlines_eq_joined (by simp), WrittenMethod.Lists.text_eq, map_append, joined_append (by simp),
    unlines_eq_joined (by simpa using signature_ne_nil _ _ _), hsignature, hentries]
  simp [constructorLists, publicWord, functionWord, constructName]

/-- **New constructors are read.** The parameters have the names they were declared with, and
the body consists of the statements that were written. -/
theorem freshConstructor_declares (hstyle : style.Writable) {className : String}
    (hclass : IsName className.toList) (hconventions : conventions.Writable)
    (h : ∀ binding ∈ bindings, binding.Writable) (hne : bindings ≠ []) :
    ∃ added ctor, DeclaresText (freshConstructor style className conventions bindings) added ∧
      added.fields = [] ∧ added.factory = none ∧ added.constructor = some ctor ∧
      ctor.params.map (·.name) = (freshSlots conventions bindings).map (·.name) ∧
      (∀ param ∈ ctor.params, param.promoted = false) ∧
      ctor.body = constructorBody style conventions bindings := by
  have hparams : freshParams conventions bindings ≠ [] := by simp [freshParams, hne]
  obtain ⟨lead, gap, tail, after, hlead, hgap, htail, hafter, hsignature⟩ :=
    joined_signature hstyle "public function __construct" hparams
  have hwritable := writable_constructorLists hstyle hconventions h hne ⟨hlead, hgap, htail, hafter⟩
  have hsound := hwritable.sound
  have hdoc := isDoc_constructorDoc hstyle hclass hconventions h
  have hkind : MethodHead.isFactory ⟨publicWord, String.ofList constructName,
      (style.memberIndent.toList ++ (publicWord ++ (functionWord ++ constructName))).length⟩ = false := by
    rw [MethodHead.isFactory, show (String.ofList constructName == "create") = false by decide +kernel]
    rfl
  have hdeclares := DeclaresText.of_method (isComment_doc hstyle.memberIndent.1 hstyle.isDoc hdoc)
    (no_return_doc hstyle hdoc) hsound (by rw [hkind]; rfl)
    (toList_freshConstructor h className hsignature) hwritable.no_return_text
  obtain ⟨params, hread, hnames, hpromoted⟩ :=
    exists_params (Slot.Declared.of_mem_freshSlots hconventions h)
  have hctor : (Constructor.ofLayout (.written (WrittenMethod.ofLists (constructorLists style conventions
      bindings lead gap tail after)).lines) hsound.layout none).params = params := by
    rw [hsound.params_ofLayout, hwritable.reads.1]
    exact hread
  obtain ⟨hfields, hfactory, hadded⟩ := hsound.added_constructor
    (show sameName (String.ofList constructName) "__construct" = true by decide +kernel)
    (by rw [hctor]; exact hpromoted)
  refine ⟨_, _, hdeclares, ?_, ?_, Members.constructor_moved hadded _, ?_, ?_, ?_⟩
  · rw [Members.moved, hfields]
    rfl
  · rw [Members.moved, hfactory]
    rfl
  · show map _ (Constructor.ofLayout _ _ none).params = _
    rw [hctor, hnames]
  · show ∀ param ∈ (Constructor.ofLayout _ _ none).params, _
    rwa [hctor]
  · show (Constructor.ofLayout _ _ none).body = _
    rw [hsound.body_ofLayout rfl (fun line hmem => (hwritable.lines line hmem).1.1) hstyle.memberIndent.2.1]
    simp [constructorLists, Function.comp_def]

end Render

end ServiceInjection
