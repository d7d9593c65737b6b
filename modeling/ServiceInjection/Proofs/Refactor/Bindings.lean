import ServiceInjection.Proofs.Refactor.Overlap

/-!
# Refactor.Bindings

What a refactoring does with the services that it binds. The property of a new service is
declared in the class already, in a block of new properties, or as a promoted parameter of
the constructor that is written. A class whose constructor promotes all its parameters, but
whose factory sets the properties of an instance, gets neither block nor constructor: there
the properties stay undeclared. The first new service always gets a binding, whatever its
names, so a draft has no bindings exactly if the class receives all requested services already
(`Draft.bindings_eq_nil_iff`).
-/

namespace ServiceInjection

/-- What the names of a binding have to do with each other: a promoted parameter has the
name of its property, any other the snake case of it. -/
structure Binding.Follows (binding : Binding) (promotion : Promotion) : Prop where
  promoted : binding.promoted = promotion.promoted
  param : binding.param =
    if promotion.promoted then binding.field else Text.snakeCase binding.field

variable {knowledge : Knowledge} {outline : Outline} {promotion : Promotion}

theorem bindService_names (knowledge : Knowledge) (outline : Outline) (reserved : Reservations)
    (serviceId : String) :
    let binding := (bindService knowledge outline reserved serviceId).1
    binding.promoted = false ∧ binding.param = Text.snakeCase binding.field := by
  unfold bindService
  split
  · exact ⟨rfl, rfl⟩
  · exact ⟨rfl, rfl⟩

/-- A binding that gets a property of its own is named after it. -/
theorem distinctField_names {bindings : List Binding} {binding chosen : Binding}
    (hpromoted : binding.promoted = false) (hparam : binding.param = Text.snakeCase binding.field)
    (h : distinctField bindings binding = some chosen) :
    (∀ other ∈ bindings, other.field ≠ chosen.field) ∧ chosen.promoted = false ∧
      chosen.param = Text.snakeCase chosen.field := by
  unfold distinctField at h
  dsimp only at h
  split at h
  · rename_i hfree
    cases h
    exact ⟨by simpa using hfree, hpromoted, hparam⟩
  · split at h
    · cases h
    · rename_i hfree
      cases h
      exact ⟨by simpa using hfree, hpromoted, rfl⟩

theorem Promotion.adjust_field (promotion : Promotion) (binding : Binding) :
    (promotion.adjust binding).field = binding.field := by
  unfold Promotion.adjust
  split <;> rfl

theorem Promotion.adjust_follows {binding : Binding} (hpromoted : binding.promoted = false)
    (hparam : binding.param = Text.snakeCase binding.field) :
    (promotion.adjust binding).Follows promotion := by
  unfold Promotion.adjust
  split
  · rename_i h
    exact ⟨h.symm, by rw [if_pos h]⟩
  · rename_i h
    exact ⟨by simpa [hpromoted] using h, by rw [if_neg h, hparam]⟩

/-- The bindings of services have different properties and parameters named after them. -/
theorem bindAll_names {reserved : Reservations} {bindings : List Binding} {ids : List String}
    (hfields : (bindings.map (·.field)).Nodup)
    (hfollows : ∀ binding ∈ bindings, binding.Follows promotion) :
    let result := (bindAll knowledge outline promotion reserved bindings ids).1
    (result.map (·.field)).Nodup ∧ ∀ binding ∈ result, binding.Follows promotion := by
  induction ids generalizing reserved bindings with
  | nil => exact ⟨hfields, hfollows⟩
  | cons id ids ih =>
    rw [bindAll]
    obtain ⟨hpromoted, hparam⟩ := bindService_names knowledge outline reserved id
    dsimp only
    split
    · rename_i chosen hchosen
      obtain ⟨hfree, hpromoted, hparam⟩ := distinctField_names hpromoted hparam hchosen
      apply ih
      · rw [List.map_append, List.nodup_append]
        refine ⟨hfields, by simp, ?_⟩
        intro field hfield other hother
        obtain ⟨binding, hbinding, rfl⟩ := List.mem_map.mp hfield
        rw [List.map_singleton, List.mem_singleton, promotion.adjust_field] at hother
        exact hother ▸ hfree binding hbinding
      · intro binding hbinding
        rcases List.mem_append.mp hbinding with hbinding | hbinding
        · exact hfollows binding hbinding
        · rw [List.mem_singleton.mp hbinding]
          exact Promotion.adjust_follows hpromoted hparam
    · exact ih hfields hfollows

/-! ### Edits of a batch -/

/-- Whether a batch does what an edit does. -/
def Batch.Emits (batch : Batch) (edit : Edit) : Prop :=
  ∃ kept ∈ batch.edits, kept.sameEffect edit = true

theorem Batch.emits_assemble {edits : List Edit} {edit : Edit} (h : edit ∈ edits) :
    (Batch.assemble edits).Emits edit := by
  obtain ⟨kept, hkept, hsame⟩ := exists_mem_eraseDupsBy h
  refine ⟨kept, ?_, hsame⟩
  rw [Batch.assemble, List.mem_reverse, (ascending_perm _).mem_iff,
    dropRepeated_eq_eraseDupsBy]
  exact hkept

namespace Draft

variable {draft : Draft} {subject : Subject} {knowledge : Knowledge} {services : List String}
  {knownInterfaces : List String} {edits : List Edit}

/-- The edit of the constructor. -/
def constructorPart (draft : Draft) (subject : Subject) : Option Edit :=
  constructorEdit subject draft.plan draft.bindings (draft.patches subject.outline)

/-- The names of a draft come from the class. -/
theorem names_of (h : Draft.of knowledge services subject = .ok draft) :
    draft.wiring = ExistingWiring.of knowledge.directory subject ∧
      (draft.bindings.map (·.field)).Nodup ∧
      ∀ binding ∈ draft.bindings, binding.Follows (Promotion.of subject) := by
  obtain ⟨hbind, hwiring, -⟩ := parts_of h
  generalize List.filter _ _ = ids at hbind
  have hnames := @bindAll_names knowledge subject.outline (Promotion.of subject) [] [] ids
    List.nodup_nil nofun
  rw [hbind] at hnames
  exact ⟨hwiring, hnames⟩

/-- The edits that declare properties and write the constructor are among those of the
draft. -/
theorem mem_edits (hbindings : draft.bindings ≠ [])
    (h : draft.edits subject knownInterfaces = .ok edits) {edit : Edit}
    (hedit : fieldEdit subject draft.bindings = some edit ∨
      draft.constructorPart subject = some edit) : edit ∈ edits := by
  rw [edits_eq_ok_iff, if_neg hbindings] at h
  obtain ⟨factory, -, rfl⟩ := h
  simp only [wired, List.mem_append, Option.mem_toList]
  rcases hedit with hedit | hedit
  · exact .inl (.inl (.inl (.inr hedit)))
  · exact .inl (.inl (.inr hedit))

end Draft

/-! ### Blocks of properties -/

/-- The services whose properties go into a block of their own. -/
def Subject.undeclared (subject : Subject) (bindings : List Binding) : List Binding :=
  bindings.filter fun binding =>
    !binding.promoted && (subject.outline.field? binding.field).isNone

theorem isSome_fieldEdit {subject : Subject} {bindings : List Binding}
    (h : subject.undeclared bindings ≠ []) : (fieldEdit subject bindings).isSome = true := by
  unfold fieldEdit
  dsimp only
  rw [if_neg (by simpa [Subject.undeclared] using h)]
  rfl

/-- The edit that declares properties holds a block of them. -/
theorem fieldEdit_text {subject : Subject} {bindings : List Binding} {edit : Edit}
    (h : fieldEdit subject bindings = some edit) :
    ∃ before behind, edit.text =
      before ++ Render.fields subject.style (subject.undeclared bindings) ++ behind := by
  unfold fieldEdit at h
  dsimp only at h
  split at h
  · cases h
  · cases h
    split
    · exact ⟨_, _, rfl⟩
    · split
      · exact ⟨"", "\n\n", by simp [Edit.insert, Subject.undeclared]⟩
      · split
        · exact ⟨"\n\n", "", by simp [Edit.insert, Subject.undeclared]⟩
        · split
          · exact ⟨"\n", "\n", rfl⟩
          · exact ⟨"\n", "", by simp [Edit.insert, Subject.undeclared]⟩

/-! ### Declarations -/

/-- The ways in which the class declares the property of a new service behind the edits of a
batch. -/
inductive Batch.DeclaresField (batch : Batch) (subject : Subject) (draft : Draft)
    (binding : Binding) : Prop
  | existing (hfield : (subject.outline.field? binding.field).isSome = true)
  | block {edit : Edit} (hedit : fieldEdit subject draft.bindings = some edit)
      (hemits : batch.Emits edit)
      (htext : ∃ before behind, edit.text =
        before ++ Render.fields subject.style (subject.undeclared draft.bindings) ++ behind)
      (hmem : binding ∈ subject.undeclared draft.bindings)
  | parameter {edit : Edit} (hedit : draft.constructorPart subject = some edit)
      (hemits : batch.Emits edit)
      (htext : HoldsList subject.style subject.signatureStart subject.signatureEnd
        (subject.frontSlots.map (·.declaration) ++ draft.bindings.map (·.declaration)) edit.text)
      (hpromoted : binding.promoted = true)

/-- **Declared properties.** The property of a new service is declared exactly unless
parameters are promoted, the factory sets the properties of an instance, and the class does
not have the property. -/
theorem refactor_declaresField_iff {knowledge : Knowledge} {request : Request} {batch : Batch}
    (h : refactor knowledge request = .ok batch) :
    ∃ subject draft, request.subject knowledge.options = .ok subject ∧
      Draft.of knowledge request.services subject = .ok draft ∧
      ∀ binding ∈ draft.bindings, batch.DeclaresField subject draft binding ↔
        ¬ ((Promotion.of subject).promoted = true ∧ subject.outline.assignsInstance = true ∧
          subject.outline.field? binding.field = none) := by
  obtain ⟨subject, draft, edits, hsubject, hdraft, hedits, -, rfl⟩ := refactor_eq_ok_iff.mp h
  refine ⟨subject, draft, hsubject, hdraft, fun binding hbinding => ?_⟩
  have hbindings : draft.bindings ≠ [] := List.ne_nil_of_mem hbinding
  have hfollows := (Draft.names_of hdraft).2.2 binding hbinding
  have haligns := (Draft.fits_of hdraft).aligns hbindings
  have hconstructor : (draft.constructorPart subject).isSome = !subject.outline.assignsInstance :=
    isSome_constructorEdit haligns
  constructor
  · rintro hdeclares ⟨hpromoted, hassigns, hnone⟩
    cases hdeclares with
    | existing hfield => simp [hnone] at hfield
    | block hedit hemits htext hmem =>
      simp [Subject.undeclared, hfollows.promoted, hpromoted] at hmem
    | parameter hedit hemits htext hpromoted => simp [hedit, hassigns] at hconstructor
  · intro hnot
    cases hfield : subject.outline.field? binding.field with
    | some field => exact .existing (by rw [hfield]; rfl)
    | none =>
      cases hpromoted : (Promotion.of subject).promoted with
      | false =>
        have hmem : binding ∈ subject.undeclared draft.bindings := by
          simp [Subject.undeclared, hbinding, hfield, hfollows.promoted, hpromoted]
        obtain ⟨edit, hedit⟩ :=
          Option.isSome_iff_exists.mp (isSome_fieldEdit (List.ne_nil_of_mem hmem))
        exact .block hedit (Batch.emits_assemble (Draft.mem_edits hbindings hedits (.inl hedit)))
          (fieldEdit_text hedit) hmem
      | true =>
        have hassigns : subject.outline.assignsInstance = false := by
          simpa [hpromoted, hfield] using hnot
        rw [hassigns] at hconstructor
        obtain ⟨edit, hedit⟩ := Option.isSome_iff_exists.mp hconstructor
        exact .parameter hedit
          (Batch.emits_assemble (Draft.mem_edits hbindings hedits (.inr hedit)))
          (constructorEdit_holds haligns hbindings hedit) (hfollows.promoted.trans hpromoted)

/-- A class with a promoted parameter and a factory that extends the one of the parent. -/
def promotedInstance : Request where
  text := "<?php
class Page extends Base \x7b
  function __construct(private $a) \x7b
  \x7d
  static function create($c) \x7b
    $i = parent::create($c);
    return $i;
  \x7d
\x7d
"
  role := .baseClass
  services := ["mailer"]

/-- The factory sets a property that nothing declares. -/
theorem undeclared_promotedInstance :
    ∃ batch subject draft binding,
      refactor { directory := {} } promotedInstance = .ok batch ∧
      promotedInstance.subject {} = .ok subject ∧
      Draft.of { directory := {} } ["mailer"] subject = .ok draft ∧
      binding ∈ draft.bindings ∧ binding.field = "mailer" ∧
      ¬ batch.DeclaresField subject draft binding := by
  have hread : promotedInstance.drafts { directory := {} } (fun subject draft _ =>
      draft.bindings.map (·.field) = ["mailer"] ∧ (Promotion.of subject).promoted ∧
        subject.outline.assignsInstance ∧
        subject.outline.field? "mailer" = none) = true := by decide +kernel
  obtain ⟨subject, draft, edits, hsubject, hdraft, -, hbatch, hread⟩ := Request.of_drafts hread
  obtain ⟨hfields, hpromoted, hassigns, hnone⟩ := decide_eq_true_eq.mp hread
  obtain ⟨subject', draft', hsubject', hdraft', hiff⟩ := refactor_declaresField_iff hbatch
  cases hsubject.symm.trans hsubject'
  cases hdraft.symm.trans hdraft'
  have hmem : "mailer" ∈ draft.bindings.map (·.field) := by simp [hfields]
  obtain ⟨binding, hbinding, hfield⟩ := List.mem_map.mp hmem
  refine ⟨_, subject, draft, binding, hbatch, hsubject, hdraft, hbinding, hfield, ?_⟩
  rw [hiff binding hbinding, hfield]
  exact not_not_intro ⟨hpromoted, hassigns, hnone⟩

open List

variable {knowledge : Knowledge} {services : List String} {subject : Subject} {draft : Draft}

/-! ### Bindings -/

section

variable {knowledge : Knowledge} {outline : Outline} {promotion : Promotion}

/-- Services that are bound stay bound. -/
theorem prefix_bindAll (reserved : Reservations) (bindings : List Binding) (ids : List String) :
    bindings <+: (bindAll knowledge outline promotion reserved bindings ids).1 := by
  induction ids generalizing reserved bindings with
  | nil => exact prefix_refl _
  | cons id ids ih =>
    rw [bindAll]
    dsimp only
    split
    · exact (prefix_append _ _).trans (ih _ _)
    · exact ih _ _

/-- A service is bound as long as there is one. -/
theorem bindAll_eq_nil_iff {reserved : Reservations} {ids : List String} :
    (bindAll knowledge outline promotion reserved [] ids).1 = [] ↔ ids = [] := by
  constructor
  · intro hnil
    cases ids with
    | nil => rfl
    | cons id ids =>
      -- No property is taken yet, so the first service keeps its own.
      rw [bindAll] at hnil
      have hprefix := @prefix_bindAll knowledge outline promotion
        (bindService knowledge outline reserved id).2
        ([] ++ [promotion.adjust (bindService knowledge outline reserved id).1]) ids
      simp only [distinctField, any_nil, Bool.not_false, if_true] at hnil
      rw [hnil, prefix_nil] at hprefix
      cases hprefix
  · rintro rfl
    rfl

end

/-! ### Drafts -/

theorem replacementOf_eq_none_iff {outline : Outline} {wiring : ExistingWiring}
    {bindings : List Binding} {call : StaticCall} :
    replacementOf outline wiring bindings call = none ↔
      (outline.staticMethodAt? call.line).isSome ∨ receiverOf outline wiring bindings call = none := by
  unfold replacementOf
  split
  · rename_i hstatic
    exact ⟨fun _ => .inl hstatic, fun _ => rfl⟩
  · rename_i hstatic
    rw [Option.map_eq_none_iff]
    exact ⟨.inr, fun h => h.resolve_left hstatic⟩

/-- A draft has no bindings exactly if all requested services are wired up already. -/
theorem Draft.bindings_eq_nil_iff (h : Draft.of knowledge services subject = .ok draft) :
    draft.bindings = [] ↔ ∀ id ∈ requestedIds knowledge services subject.calls,
      id ∈ (ExistingWiring.of knowledge.directory subject).ids := by
  obtain ⟨hbind, hwiring, -⟩ := parts_of h
  rw [show draft.bindings = _ from (congrArg Prod.fst hbind).symm, hwiring, bindAll_eq_nil_iff, filter_eq_nil_iff]
  simp

/-- A draft with bindings has edits. -/
theorem Draft.edits_ne_nil {knownInterfaces : List String} {edits : List Edit}
    (h : Draft.of knowledge services subject = .ok draft) (hbindings : draft.bindings ≠ [])
    (hedits : draft.edits subject knownInterfaces = .ok edits) : edits ≠ [] := by
  have haligns := (fits_of h).aligns hbindings
  rw [edits_eq_ok_iff, if_neg hbindings] at hedits
  obtain ⟨factory, hfactory, rfl⟩ := hedits
  -- Every plan writes the constructor, but the one that sets properties in the factory.
  simp only [wired]
  generalize draft.plan = plan at haligns hfactory ⊢
  cases haligns with
  | create | addConstructor => simp [constructorEdit]
  | extendConstructor hctor | extendBoth hctor => simp [constructorEdit, hctor]
  | extendFactory hsome hshape =>
    simp only [factoryEdit, hsome, Option.bind_some, mergedFactory, hshape] at hfactory
    cases hfactory
    simp

/-- The edits of a draft without bindings are those of its calls. -/
theorem Draft.edits_of_nil (h : Draft.of knowledge services subject = .ok draft)
    (hbindings : draft.bindings = []) (knownInterfaces : List String) :
    draft.edits subject knownInterfaces = .ok (draft.replacements.map (·.edit)) := by
  have hplan := (fits_of h).keep (isEmpty_iff.mpr hbindings)
  have hloose : draft.loose subject.outline = draft.replacements := by
    rw [Draft.loose, filter_eq_self]
    intro replacement _
    simp [Draft.isPatch, hplan]
  simp [Draft.edits, hbindings, hloose, bind, Except.bind]

end ServiceInjection
