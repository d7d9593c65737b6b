import ServiceInjection.Proofs.Refactor.ImportsOnce
import ServiceInjection.Proofs.Wiring.TypeRefs

/-!
# Refactor.TypeMeanings

The types that a refactoring writes into a class. Each type is chosen while the list of new
imports is still growing: a class gets its short name if nothing else has it, and the name is
reserved for it from then on (`Draft.Refers`). The container comes behind the services and the
marker interface behind the container, so what a type means with the names reserved for it, it
means in the file as it is in the end (`refactor_types_mean`).
-/

namespace ServiceInjection

open Text List

theorem unrooted_containerInterface : unrooted containerInterface = containerInterface := by
  cbv

theorem Role.unrooted_markerInterface {role : Role} {conventions : Conventions}
    (h : role.conventions? = some conventions) :
    unrooted conventions.markerInterface = conventions.markerInterface := by
  cases role with
  | baseClass =>
    cases h
    cbv
  | pluginFactory =>
    cases h
    cbv
  | other tag => cases h

namespace Draft

variable {draft : Draft} {subject : Subject} {knowledge : Knowledge} {services : List String}
  {knownInterfaces : List String}

/-- How the marker interface is written, and the names reserved behind it. -/
def markerType (draft : Draft) (subject : Subject) : TypeRef × Reservations :=
  typeRef subject.outline (draft.containerType subject.outline).2
    subject.conventions.markerInterface

/-- The edit that adds the marker interface writes it as a type. -/
theorem marker_eq {edit : Edit} {importName : Option String}
    (h : draft.marker subject knownInterfaces = some (edit, importName)) :
    importName = (draft.markerType subject).1.importName ∧
      (edit.text = " implements " ++ (draft.markerType subject).1.text ∨
        edit.text = ", " ++ (draft.markerType subject).1.text) := by
  unfold marker at h
  split at h
  · simp only [markerEdit, Option.bind_eq_bind, Option.bind_eq_some_iff] at h
    obtain ⟨_, -, line, -, hsome⟩ := h
    cases hsome
    refine ⟨rfl, ?_⟩
    dsimp only [Edit.insert]
    split
    · exact .inl rfl
    · exact .inr rfl
  · cases h

/-- Whether the types of a draft refer to what they should, with some names reserved for the
classes to import. -/
structure Refers (draft : Draft) (subject : Subject) (knowledge : Knowledge)
    (reserved : Reservations) : Prop where
  reserves : Reserves subject.outline reserved
  bindings : ∀ binding ∈ draft.bindings, binding.Typed knowledge subject.outline reserved
  container : draft.plan.factory = .create → ServiceInjection.Refers subject.outline reserved
    containerInterface (draft.containerType subject.outline).1
  container_keep : draft.plan.factory ≠ .create →
    (draft.containerType subject.outline).1.importName = none
  marker : ServiceInjection.Refers subject.outline reserved subject.conventions.markerInterface
    (draft.markerType subject).1

theorem refers_of (hdirectory : knowledge.directory.Unrooted)
    (hmarker : unrooted subject.conventions.markerInterface = subject.conventions.markerInterface)
    (h : Draft.of knowledge services subject = .ok draft) :
    draft.Refers subject knowledge (draft.markerType subject).2 := by
  obtain ⟨hbind, -⟩ := parts_of h
  generalize List.filter _ _ = ids at hbind
  obtain ⟨hreserves, htyped⟩ := @bindAll_typed knowledge subject.outline (Promotion.of subject) []
    hdirectory [] ids (reserves_nil _) nofun
  rw [hbind] at hreserves htyped
  -- The container comes behind the bindings, and the marker interface behind the container.
  have hcontainer : Reserves subject.outline (draft.containerType subject.outline).2 ∧
      draft.reserved ⊆ (draft.containerType subject.outline).2 ∧
      (draft.plan.factory = .create → ServiceInjection.Refers subject.outline
        (draft.containerType subject.outline).2 containerInterface
        (draft.containerType subject.outline).1) ∧
      (draft.plan.factory ≠ .create →
        (draft.containerType subject.outline).1.importName = none) := by
    unfold containerType
    split
    · rename_i hcreate
      obtain ⟨hreserves', hsub, hrefers⟩ := typeRef_refers hreserves unrooted_containerInterface
      exact ⟨hreserves', hsub, fun _ => hrefers, fun hne => absurd (by simpa using hcreate) hne⟩
    · rename_i hkeep
      exact ⟨hreserves, List.Subset.refl _, fun hcreate => absurd (by simp [hcreate]) hkeep,
        fun _ => rfl⟩
  obtain ⟨hreserves', hsub, hrefers, hkeep⟩ := hcontainer
  obtain ⟨hreserves'', hsub', hrefers'⟩ := typeRef_refers hreserves' hmarker
  exact ⟨hreserves'', fun binding hbinding => ((htyped binding hbinding).mono hsub).mono hsub',
    fun hcreate => (hrefers hcreate).mono hsub', hkeep, hrefers'⟩

theorem mem_importNames {name : String} :
    name ∈ draft.importNames subject knownInterfaces ↔
      (draft.containerType subject.outline).1.importName = some name ∨
        (draft.marker subject knownInterfaces).bind (·.2) = some name ∨
        ∃ binding ∈ draft.bindings, binding.importName = some name := by
  simp only [importNames, List.mem_eraseDups, List.mem_mergeSort, List.mem_append,
    Option.mem_toList, List.mem_filterMap, or_assoc]

variable {reserved : Reservations}

/-- Every class that is imported has its short name reserved. -/
theorem Refers.mem_reserved (h : draft.Refers subject knowledge reserved) {name : String}
    (hname : name ∈ draft.importNames subject knownInterfaces) :
    (shortName name, name) ∈ reserved := by
  rcases mem_importNames.mp hname with hname | hname | ⟨binding, hbinding, hname⟩
  · by_cases hcreate : draft.plan.factory = .create
    · exact (h.container hcreate).mem_reserved hname
    · rw [h.container_keep hcreate] at hname
      cases hname
  · obtain ⟨⟨edit, importName⟩, hmarker, rfl⟩ := Option.bind_eq_some_iff.mp hname
    exact h.marker.mem_reserved (marker_eq hmarker).1.symm
  · cases h.bindings binding hbinding with
    | untyped htype himport =>
      rw [himport] at hname
      cases hname
    | typed hrow htype hrefers => exact hrefers.mem_reserved hname

/-- A class to import is new in the file. -/
theorem Refers.mem_newImports (h : draft.Refers subject knowledge reserved) {name : String} :
    name ∈ draft.newImports subject knownInterfaces ↔
      name ∈ draft.importNames subject knownInterfaces := by
  refine ⟨fun hname => (List.mem_filter.mp hname).1, fun hname => List.mem_filter.mpr ⟨hname, ?_⟩⟩
  simpa using h.reserves.new _ (h.mem_reserved hname)

/-- Whether every type that a draft writes means the class it should, with further classes
imported. -/
structure TypesMean (draft : Draft) (subject : Subject) (knowledge : Knowledge)
    (knownInterfaces : List String) (added : List String) : Prop where
  bindings : ∀ binding ∈ draft.bindings, ∀ hint ∈ binding.typeHint,
    ∃ row, knowledge.directory.lookup? binding.serviceId = some row ∧
      subject.outline.Means added hint row.interface
  container : draft.plan.factory = .create →
    subject.outline.Means added (draft.containerType subject.outline).1.text containerInterface
  marker : ∀ edit ∈ (draft.marker subject knownInterfaces).map (·.1), ∃ hint,
    (edit.text = " implements " ++ hint ∨ edit.text = ", " ++ hint) ∧
      subject.outline.Means added hint subject.conventions.markerInterface

theorem Refers.typesMean (h : draft.Refers subject knowledge reserved)
    (hplain : ∀ entry ∈ subject.outline.imports, entry.Plain)
    (hdistinct : subject.outline.imports.Pairwise fun a b => a.localName ≠ b.localName)
    {added : List String} (hadded : added.Perm (draft.newImports subject knownInterfaces)) :
    draft.TypesMean subject knowledge knownInterfaces added := by
  have hmem : ∀ {name}, name ∈ added ↔ name ∈ draft.importNames subject knownInterfaces :=
    hadded.mem_iff.trans h.mem_newImports
  have hreserved : ∀ name ∈ added, (shortName name, name) ∈ reserved :=
    fun name hname => h.mem_reserved (hmem.mp hname)
  refine ⟨fun binding hbinding hint hhint => ?_, fun hcreate => ?_, fun edit hedit => ?_⟩
  · cases h.bindings binding hbinding with
    | untyped htype himport =>
      rw [htype] at hhint
      cases hhint
    | @typed row hint' hrow htype hrefers =>
      obtain rfl : hint' = hint := Option.some.inj (htype.symm.trans hhint)
      refine ⟨row, hrow, hrefers.means h.reserves hplain hdistinct hreserved ?_⟩
      exact fun new hnew => hmem.mpr (mem_importNames.mpr (.inr (.inr ⟨binding, hbinding, hnew⟩)))
  · refine (h.container hcreate).means h.reserves hplain hdistinct hreserved ?_
    exact fun new hnew => hmem.mpr (mem_importNames.mpr (.inl hnew))
  · obtain ⟨⟨edit', importName⟩, hmarker, rfl⟩ := Option.map_eq_some_iff.mp hedit
    obtain ⟨himport, htext⟩ := marker_eq hmarker
    refine ⟨_, htext, h.marker.means h.reserves hplain hdistinct hreserved fun new hnew => ?_⟩
    refine hmem.mpr (mem_importNames.mpr (.inr (.inl ?_)))
    rw [hmarker, Option.bind_some]
    exact himport.trans hnew

end Draft

/-- **Types mean the right interface.** In a file whose imports have different local names, every
type that a refactoring writes stands for the class it should, once the batch has added its
imports. Each import of the batch is a statement for one of the new classes, in some order. -/
theorem refactor_types_mean {knowledge : Knowledge} {request : Request} {batch : Batch}
    {entries : List ServiceEntry} (hdirectory : knowledge.directory = .ofEntries entries)
    (h : refactor knowledge request = .ok batch) :
    ∃ subject draft edits, request.subject knowledge.options = .ok subject ∧
      Draft.of knowledge request.services subject = .ok draft ∧
      draft.edits subject request.knownInterfaces = .ok edits ∧ batch = Batch.assemble edits ∧
      ∃ added, (∀ edit ∈ draft.importPart subject request.knownInterfaces,
          edit ∈ edits ∧ Draft.ImportsAt subject added edit) ∧
        (draft.importPart subject request.knownInterfaces = none → added = []) ∧
        (subject.outline.imports.Pairwise (fun a b => a.localName ≠ b.localName) →
          draft.TypesMean subject knowledge request.knownInterfaces added) := by
  obtain ⟨subject, draft, edits, hsubject, hdraft, hedits, -, rfl⟩ := refactor_eq_ok_iff.mp h
  obtain ⟨-, n, houtline⟩ := Request.subject_spec hsubject
  have hplain : ∀ entry ∈ subject.outline.imports, entry.Plain := by
    rw [Outline.imports_ofDeclaration houtline]
    exact ImportScan.plain_run subject.source
  have hrefers := Draft.refers_of (hdirectory ▸ Directory.unrooted_ofEntries entries)
    (Role.unrooted_markerInterface (Request.conventions_of_subject hsubject)) hdraft
  obtain ⟨others, hsplit⟩ := Draft.exists_edits hedits (Draft.fits_of hdraft)
  refine ⟨subject, draft, edits, hsubject, hdraft, hedits, rfl, ?_⟩
  rcases @Draft.importPart_spec draft subject request.knownInterfaces
    (Outline.placed_ofDeclaration houtline) with ⟨hnone, hnew⟩ | ⟨edit, names, hedit, hperm, hat⟩
  · refine ⟨[], by simp [hnone], fun _ => rfl, fun hdistinct => ?_⟩
    exact hrefers.typesMean hplain hdistinct (hnew ▸ .nil)
  · refine ⟨names, fun edit' hedit' => ?_, by simp [hedit], fun hdistinct => ?_⟩
    · cases hedit.symm.trans hedit'
      exact ⟨by simp [hsplit, hedit], hat⟩
    · exact hrefers.typesMean hplain hdistinct hperm

/-- A class below an import under another name and one whose short name a service shares. -/
def sharedShortName : Request where
  text := "<?php
use A\\Renderer as Painter;
use X\\Mailer;
class Page \x7b
\x7d
"
  role := .baseClass
  services := ["renderer", "mailer", "clock"]

/-- Services whose types are written in the three ways. -/
def threeTypes : Knowledge where
  directory := .ofEntries
    [⟨"renderer", "a\\renderer", none, none⟩, ⟨"mailer", "\\Y\\Mailer", none, none⟩,
      ⟨"clock", "C\\Clock", none, none⟩]

theorem typesMean_sharedShortName :
    ∃ batch subject draft, refactor threeTypes sharedShortName = .ok batch ∧
      sharedShortName.subject {} = .ok subject ∧
      Draft.of threeTypes sharedShortName.services subject = .ok draft ∧
      draft.bindings.map (·.typeHint) = [some "Painter", some "\\Y\\Mailer", some "Clock"] ∧
      subject.outline.imports.Pairwise (fun a b => a.localName ≠ b.localName) ∧
      ∃ added, draft.TypesMean subject threeTypes [] added := by
  have hread : (sharedShortName.subject {}).toOption.any (fun subject =>
      (Draft.of threeTypes sharedShortName.services subject).toOption.any fun draft =>
        (draft.edits subject []).toOption.any (fun _ => true) ∧
          draft.bindings.map (·.typeHint) =
            [some "Painter", some "\\Y\\Mailer", some "Clock"] ∧
          subject.outline.imports.Pairwise fun a b => a.localName ≠ b.localName) = true := by
    decide +kernel
  simp only [any_toOption_iff, decide_eq_true_eq] at hread
  obtain ⟨subject, hsubject, draft, hdraft, ⟨edits, hedits, -⟩, hhints, hdistinct⟩ := hread
  have hne : draft.bindings ≠ [] := by
    intro hnil
    rw [hnil] at hhints
    cases hhints
  have hbatch : refactor threeTypes sharedShortName = .ok (Batch.assemble edits) :=
    refactor_eq_ok_iff.mpr ⟨subject, draft, edits, hsubject, hdraft, hedits,
      Draft.edits_ne_nil hdraft hne hedits, rfl⟩
  obtain ⟨subject', draft', -, hsubject', hdraft', -, -, added, -, -, hmeans⟩ :=
    refactor_types_mean rfl hbatch
  cases hsubject.symm.trans hsubject'
  cases hdraft.symm.trans hdraft'
  exact ⟨_, subject, draft, hbatch, hsubject, hdraft, hhints, hdistinct, added, hmeans hdistinct⟩

end ServiceInjection
