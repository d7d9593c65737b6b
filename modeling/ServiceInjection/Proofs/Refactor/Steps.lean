import ServiceInjection.Refactor

/-!
# Refactor.Steps

What each step of a refactoring can do. Every step either fails or gives a result, and is opened
here once: the class of a request (`Request.of_subject`), the draft for a class (`Draft.parts_of`),
the edits of a draft (`Draft.edits_eq_ok_iff`) and the batch (`refactor_eq_ok_iff`).
-/

namespace ServiceInjection

open List

/-! ### Computations that may fail -/

section

variable {ε ε' α β : Type} {x : Except ε α} {a : α} {b : β}

theorem bind_eq_ok_iff {next : α → Except ε β} :
    x >>= next = .ok b ↔ ∃ a, x = .ok a ∧ next a = .ok b := by
  cases x <;> simp [bind, Except.bind]

theorem mapError_eq_ok_iff {f : ε → ε'} : x.mapError f = .ok a ↔ x = .ok a := by
  cases x <;> constructor <;> rintro ⟨⟩ <;> rfl

theorem any_toOption_iff {test : α → Bool} :
    x.toOption.any test = true ↔ ∃ a, x = .ok a ∧ test a = true := by
  cases x <;> simp [Except.toOption]

end

variable {knowledge : Knowledge} {request : Request} {subject : Subject} {draft : Draft}

/-! ### The class of a request -/

section

variable {options : Options} (h : request.subject options = .ok subject)

include h

theorem Request.of_subject :
    (subject.source = Source.ofText request.text ∧
      ∃ n, Outline.ofDeclaration subject.source n = some subject.outline) ∧
    request.role.conventions? = some subject.conventions ∧
    subject.style = CodeStyle.detect subject.outline subject.source options.indent := by
  simp only [Request.subject, bind, Except.bind] at h
  split at h
  · rename_i conventions hconventions
    split at h
    · rename_i outline hfound
      split at h
      · cases h
      · split at h
        · cases h
        · cases h
          refine ⟨⟨rfl, ?_⟩, hconventions, rfl⟩
          split at hfound <;>
          · obtain ⟨n, -, hn⟩ := Option.bind_eq_some_iff.mp hfound
            exact ⟨n, hn⟩
    · cases h
  · cases h

/-- The class that a request is about is read from its text. -/
theorem Request.subject_spec : subject.source = Source.ofText request.text ∧
    ∃ n, Outline.ofDeclaration subject.source n = some subject.outline := (of_subject h).1

theorem Request.conventions_of_subject : request.role.conventions? = some subject.conventions :=
  (of_subject h).2.1

end

/-! ### Drafts -/

namespace Draft

/-- What a draft consists of. Without a service to wire up, the plan is to do nothing. -/
theorem parts_of {services : List String} (h : Draft.of knowledge services subject = .ok draft) :
    let requested := requestedIds knowledge services subject.calls
    bindAll knowledge subject.outline (Promotion.of subject) [] []
        (requested.filter fun id => !draft.wiring.ids.contains id) =
          (draft.bindings, draft.reserved) ∧
      draft.wiring = ExistingWiring.of knowledge.directory subject ∧
      draft.replacements = (subject.calls.filter (requested.contains ·.serviceId)).filterMap
        (replacementOf subject.outline draft.wiring draft.bindings) ∧
      if draft.bindings.isEmpty then draft.plan = ⟨.keep, .keep⟩
      else planMethods subject.outline (subject.conventions.leadingParams.map (·.expression)) =
        .ok draft.plan := by
  simp only [Draft.of] at h
  split at h
  · rename_i hempty
    cases h
    exact ⟨rfl, rfl, rfl, by rw [if_pos hempty]⟩
  · rename_i hbindings
    obtain ⟨plan, hplan, h⟩ := bind_eq_ok_iff.mp h
    cases h
    exact ⟨rfl, rfl, rfl, by rw [if_neg hbindings, mapError_eq_ok_iff.mp hplan]⟩

/-- The edits that wire services up, given the one of the factory. -/
def wired (draft : Draft) (subject : Subject) (knownInterfaces : List String)
    (factory : Option Edit) : List Edit :=
  (importEdit subject (draft.importNames subject knownInterfaces)).toList ++
    ((draft.marker subject knownInterfaces).map (·.1)).toList ++
    (fieldEdit subject draft.bindings).toList ++
    (constructorEdit subject draft.plan draft.bindings (draft.patches subject.outline)).toList ++
    factory.toList

/-- The edits of a draft: those of its calls, behind those that wire up its services. -/
theorem edits_eq_ok_iff {knownInterfaces : List String} {edits : List Edit} :
    draft.edits subject knownInterfaces = .ok edits ↔
      if draft.bindings = [] then edits = (draft.loose subject.outline).map (·.edit)
      else ∃ factory, factoryEdit subject draft.plan draft.wiring
          (draft.containerType subject.outline).1.text draft.bindings = .ok factory ∧
        edits = draft.wired subject knownInterfaces factory ++
          (draft.loose subject.outline).map (·.edit) := by
  by_cases hbindings : draft.bindings = []
  · simp [Draft.edits, hbindings, bind, Except.bind, eq_comm]
  · simp only [Draft.edits, List.isEmpty_iff, if_neg hbindings, bind_eq_ok_iff, mapError_eq_ok_iff,
      wiringEdits, Except.ok.injEq]
    constructor
    · rintro ⟨wiring, ⟨factory, hfactory, rfl⟩, rfl⟩
      exact ⟨factory, hfactory, rfl⟩
    · rintro ⟨factory, hfactory, rfl⟩
      exact ⟨_, ⟨factory, hfactory, rfl⟩, rfl⟩

end Draft

/-! ### Refactorings -/

/-- A refactoring drafts the wiring of a class and spells it out. -/
theorem refactor_eq_ok_iff {batch : Batch} :
    refactor knowledge request = .ok batch ↔
      ∃ subject draft edits, request.subject knowledge.options = .ok subject ∧
        Draft.of knowledge request.services subject = .ok draft ∧
        draft.edits subject request.knownInterfaces = .ok edits ∧ edits ≠ [] ∧
        Batch.assemble edits = batch := by
  simp only [refactor, refactorEdits, bind_eq_ok_iff]
  constructor
  · rintro ⟨subject, hsubject, edits, ⟨draft, hdraft, hedits⟩, h⟩
    split at h
    · cases h
    · rename_i hne
      exact ⟨subject, draft, edits, hsubject, hdraft, hedits, by simpa using hne,
        Except.ok.inj h⟩
  · rintro ⟨subject, draft, edits, hsubject, hdraft, hedits, hne, rfl⟩
    exact ⟨subject, hsubject, edits, ⟨draft, hdraft, hedits⟩, if_neg (by simpa using hne)⟩

/-- Whether a request leads to edits, and the class, the draft and the edits pass a test. -/
def Request.drafts (knowledge : Knowledge) (request : Request)
    (test : Subject → Draft → List Edit → Bool) : Bool :=
  (request.subject knowledge.options).toOption.any fun subject =>
    (Draft.of knowledge request.services subject).toOption.any fun draft =>
      (draft.edits subject request.knownInterfaces).toOption.any fun edits =>
        edits ≠ [] ∧ test subject draft edits

theorem Request.of_drafts {test : Subject → Draft → List Edit → Bool}
    (h : request.drafts knowledge test = true) :
    ∃ subject draft edits, request.subject knowledge.options = .ok subject ∧
      Draft.of knowledge request.services subject = .ok draft ∧
      draft.edits subject request.knownInterfaces = .ok edits ∧
      refactor knowledge request = .ok (.assemble edits) ∧ test subject draft edits = true := by
  simp only [drafts, any_toOption_iff, decide_eq_true_eq] at h
  obtain ⟨subject, hsubject, draft, hdraft, edits, hedits, hne, htest⟩ := h
  exact ⟨subject, draft, edits, hsubject, hdraft, hedits,
    refactor_eq_ok_iff.mpr ⟨subject, draft, edits, hsubject, hdraft, hedits, hne, rfl⟩, htest⟩

end ServiceInjection
