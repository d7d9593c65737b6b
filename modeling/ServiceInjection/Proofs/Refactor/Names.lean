import Mathlib.Data.List.Nodup
import ServiceInjection.Proofs.Refactor.Bindings
import ServiceInjection.Proofs.Text.Names

/-!
# Refactor.Names

The names that a refactoring writes into a class. New properties differ from each other, and
new parameters do too if the properties are in camel case. Nothing keeps a new parameter apart
from an old one, nor a new property apart from one that holds another service already:
`Draft.NamesFree` says when a refactoring captures no name.
-/

namespace ServiceInjection

open List

/-- The parameters that a role requires have names of their own. -/
theorem Role.nodup_leading {role : Role} {conventions : Conventions}
    (h : role.conventions? = some conventions) :
    (conventions.leadingParams.map (·.slot.name)).Nodup := by
  cases role with
  | baseClass =>
    cases h
    decide
  | pluginFactory =>
    cases h
    decide
  | other tag => cases h

namespace Draft

variable {draft : Draft} {subject : Subject}

/-- The names of the parameters of the constructor that is written. -/
def paramNames (draft : Draft) (subject : Subject) : List String :=
  subject.frontSlots.map (·.name) ++ draft.bindings.map (·.param)

/-- Whether no name is taken twice: not by parameters of the constructor that is written, and
not by properties of new services or of ones that the class already receives. -/
structure CapturesNone (draft : Draft) (subject : Subject) : Prop where
  params : (draft.constructorPart subject).isSome = true → (draft.paramNames subject).Nodup
  held : ∀ binding ∈ draft.bindings, ∀ entry ∈ draft.wiring.fields, entry.2 ≠ binding.field
  fields : draft.bindings.Pairwise fun a b => a.field ≠ b.field

/-- Whether the names chosen for new services are free. New services are compared with each
other only where a property has a name that is not in camel case, since all other ones
differ anyhow. -/
structure NamesFree (draft : Draft) (subject : Subject) : Prop where
  params : (draft.constructorPart subject).isSome = true → ∀ binding ∈ draft.bindings,
    binding.param ∉ subject.frontSlots.map (·.name)
  spelling : (draft.constructorPart subject).isSome = true →
    (Promotion.of subject).promoted = false → ∀ a ∈ draft.bindings, ∀ b ∈ draft.bindings,
      Text.camelCase a.field ≠ a.field → a.field ≠ b.field →
        Text.snakeCase a.field ≠ Text.snakeCase b.field
  held : ∀ binding ∈ draft.bindings, ∀ entry ∈ draft.wiring.fields, entry.2 ≠ binding.field

/-- Services with properties in camel case have parameters of their own. -/
theorem nodup_params_iff (hfields : (draft.bindings.map (·.field)).Nodup)
    (hfollows : ∀ binding ∈ draft.bindings, binding.Follows (Promotion.of subject)) :
    (draft.bindings.map (·.param)).Nodup ↔
      ((Promotion.of subject).promoted = false → ∀ a ∈ draft.bindings, ∀ b ∈ draft.bindings,
        Text.camelCase a.field ≠ a.field → a.field ≠ b.field →
          Text.snakeCase a.field ≠ Text.snakeCase b.field) := by
  cases hpromoted : (Promotion.of subject).promoted with
  | true =>
    have hparams : draft.bindings.map (·.param) = draft.bindings.map (·.field) :=
      map_congr_left fun binding hbinding => by
        rw [(hfollows binding hbinding).param, hpromoted, if_pos rfl]
    simp [hparams, hfields]
  | false =>
    have hparams : draft.bindings.map (·.param) =
        draft.bindings.map (fun binding => Text.snakeCase binding.field) :=
      map_congr_left fun binding hbinding => by
        rw [(hfollows binding hbinding).param, hpromoted, if_neg (by decide)]
    rw [hparams]
    constructor
    · intro hnodup _ a ha b hb _ hne heq
      exact hne (congrArg (·.field) (inj_on_of_nodup_map hnodup ha hb heq))
    · intro hspelling
      refine List.Nodup.map_on ?_ (List.Nodup.of_map _ hfields)
      intro a ha b hb heq
      refine inj_on_of_nodup_map hfields ha hb ?_
      -- One of two names with the same snake case is not in camel case.
      by_contra hne
      have hcamel : Text.camelCase a.field = a.field := by
        by_contra hcamel
        exact hspelling rfl a ha b hb hcamel hne heq
      have hcamel' : Text.camelCase b.field = b.field := by
        by_contra hcamel'
        exact hspelling rfl b hb a ha hcamel' (Ne.symm hne) heq.symm
      apply hne
      calc a.field = Text.camelCase (Text.snakeCase a.field) :=
            (Text.camelCase_snakeCase hcamel).symm
        _ = Text.camelCase (Text.snakeCase b.field) := by rw [heq]
        _ = b.field := Text.camelCase_snakeCase hcamel'

theorem capturesNone_iff (hfront : (subject.frontSlots.map (·.name)).Nodup)
    (hfields : (draft.bindings.map (·.field)).Nodup)
    (hfollows : ∀ binding ∈ draft.bindings, binding.Follows (Promotion.of subject)) :
    draft.CapturesNone subject ↔ draft.NamesFree subject := by
  have hnodup : (draft.paramNames subject).Nodup ↔
      (draft.bindings.map (·.param)).Nodup ∧
        ∀ binding ∈ draft.bindings, binding.param ∉ subject.frontSlots.map (·.name) := by
    rw [paramNames, nodup_append]
    constructor
    · rintro ⟨-, hnew, happart⟩
      exact ⟨hnew, fun binding hbinding hmem =>
        happart _ hmem _ (mem_map_of_mem hbinding) rfl⟩
    · rintro ⟨hnew, hfree⟩
      refine ⟨hfront, hnew, fun name hname other hother heq => ?_⟩
      obtain ⟨binding, hbinding, rfl⟩ := mem_map.mp hother
      exact hfree binding hbinding (heq ▸ hname)
  constructor
  · rintro ⟨hparams, hheld, -⟩
    refine ⟨fun hsome => (hnodup.mp (hparams hsome)).2, fun hsome => ?_, hheld⟩
    exact (nodup_params_iff hfields hfollows).mp (hnodup.mp (hparams hsome)).1
  · rintro ⟨hfree, hspelling, hheld⟩
    refine ⟨fun hsome => hnodup.mpr ⟨?_, hfree hsome⟩, hheld, pairwise_map.mp hfields⟩
    exact (nodup_params_iff hfields hfollows).mpr (hspelling hsome)

end Draft

/-- **Captured names.** For a class whose constructor parameters have names of their own, a
refactoring captures no name exactly if the names that it chooses are free. -/
theorem refactor_capturesNone_iff {knowledge : Knowledge} {request : Request} {batch : Batch}
    (h : refactor knowledge request = .ok batch) :
    ∃ subject draft, request.subject knowledge.options = .ok subject ∧
      Draft.of knowledge request.services subject = .ok draft ∧
      (∀ edit, draft.constructorPart subject = some edit → batch.Emits edit ∧
        HoldsList subject.style subject.signatureStart subject.signatureEnd
          (subject.frontSlots.map (·.declaration) ++ draft.bindings.map (·.declaration))
          edit.text) ∧
      ((∀ ctor, subject.outline.constructor = some ctor → (ctor.params.map (·.name)).Nodup) →
        (draft.CapturesNone subject ↔ draft.NamesFree subject)) := by
  obtain ⟨subject, draft, edits, hsubject, hdraft, hedits, -, rfl⟩ := refactor_eq_ok_iff.mp h
  obtain ⟨-, hfields, hfollows⟩ := Draft.names_of hdraft
  refine ⟨subject, draft, hsubject, hdraft, fun edit hedit => ?_, fun hparams => ?_⟩
  · have hbindings : draft.bindings ≠ [] := by
      intro hempty
      have hkeep := (Draft.fits_of hdraft).keep (by simp [hempty])
      simp [Draft.constructorPart, constructorEdit, hkeep] at hedit
    exact ⟨Batch.emits_assemble (Draft.mem_edits hbindings hedits (.inr hedit)),
      constructorEdit_holds ((Draft.fits_of hdraft).aligns hbindings) hbindings hedit⟩
  · refine Draft.capturesNone_iff ?_ hfields hfollows
    unfold Subject.frontSlots
    split
    · rename_i ctor hctor
      rw [map_map]
      exact hparams ctor hctor
    · rw [map_map]
      exact Role.nodup_leading (Request.conventions_of_subject hsubject)

/-- A class that is to receive a service named like a parameter that it has. -/
def namesakeParam : Request where
  text := "<?php
class Page \x7b
  function __construct($mailer) \x7b
  \x7d
  static function create($c) \x7b
    return new static($c->get('smtp'));
  \x7d
\x7d
"
  role := .baseClass
  services := ["mailer"]

/-- The extended constructor has two parameters of one name. -/
theorem captured_namesakeParam :
    ∃ batch subject draft, refactor { directory := {} } namesakeParam = .ok batch ∧
      namesakeParam.subject {} = .ok subject ∧
      Draft.of { directory := {} } ["mailer"] subject = .ok draft ∧
      draft.paramNames subject = ["mailer", "mailer"] ∧
      ¬ draft.CapturesNone subject ∧ ¬ draft.NamesFree subject := by
  have hread : namesakeParam.drafts { directory := {} } (fun subject draft _ =>
      subject.outline.constructor.map (·.params.map (·.name)) = some ["mailer"] ∧
        (draft.constructorPart subject).isSome ∧
        draft.paramNames subject = ["mailer", "mailer"]) = true := by
    decide +kernel
  obtain ⟨subject, draft, edits, hsubject, hdraft, -, hbatch, hread⟩ := Request.of_drafts hread
  obtain ⟨hctor, hsome, hnames⟩ := decide_eq_true_eq.mp hread
  obtain ⟨subject', draft', hsubject', hdraft', -, hiff⟩ := refactor_capturesNone_iff hbatch
  cases hsubject.symm.trans hsubject'
  cases hdraft.symm.trans hdraft'
  have hiff := hiff fun ctor h => by
    rw [h, Option.map_some, Option.some.injEq] at hctor
    rw [hctor]
    decide
  have hnot : ¬ draft.CapturesNone subject := by
    intro hcaptures
    have hnodup := hcaptures.params hsome
    rw [hnames] at hnodup
    revert hnodup
    decide
  exact ⟨_, subject, draft, hbatch, hsubject, hdraft, hnames, hnot, fun h => hnot (hiff.mpr h)⟩

end ServiceInjection
