import ServiceInjection.Proofs.Wiring.FreshFactory

/-!
# Wiring.RoundTrip

Wiring that is rendered is recognised. A class whose body consists of new properties, a new
constructor and a new factory is read back with what the bindings say (`Wires`): the properties
in order, the parameters and the arguments in order, and for each service the property that
holds it. A class that was wired up once is therefore known to be wired up.
-/

namespace ServiceInjection

open Text List

theorem FactoryShape.newStatic_of_moved {shape : FactoryShape} {k first last : Nat} {keyword : String}
    {arguments : List String} {trailing : Bool}
    (h : shape.moved k = .newStatic keyword arguments trailing first last) :
    ∃ first last, shape = .newStatic keyword arguments trailing first last := by
  cases shape with
  | newStatic keyword' arguments' trailing' first' last' =>
    simp only [FactoryShape.moved, FactoryShape.newStatic.injEq] at h
    obtain ⟨rfl, rfl, rfl, -, -⟩ := h
    exact ⟨_, _, rfl⟩
  | _ => cases h

/-- The line on which a factory returns a new object. -/
def FactoryShape.returnLine? : FactoryShape → Option Nat
  | .newStatic _ _ _ returnLine _ => some returnLine
  | _ => none

theorem FactoryShape.returnLine?_moved (shape : FactoryShape) (k : Nat) :
    (shape.moved k).returnLine? = shape.returnLine?.map (k + ·) := by
  cases shape <;> rfl

theorem Factory.below_moved_iff {factory : Factory} {k : Nat} :
    (∀ returnLine ∈ (factory.moved k).shape.returnLine?, (factory.moved k).openBraceLine < returnLine) ↔
      ∀ returnLine ∈ factory.shape.returnLine?, factory.openBraceLine < returnLine := by
  simp [Factory.moved, FactoryShape.returnLine?_moved]

/-! ### Classes as text -/

namespace Render

/-- The text of a class with the given members. -/
def classText (braceOnOwnLine : Bool) (name clauses members : String) : String :=
  joinLines (["<?php", ""] ++ (classHeader braceOnOwnLine name.toList clauses.toList).map String.ofList ++
    [members, "\x7d", ""])

/-- The lines of a class whose members stand on lines of their own. -/
theorem ofText_classText {name clauses members : String} (hname : IsName name.toList)
    (hclauses : IsClauses clauses.toList) {ls : List (List Char)} (hne : ls ≠ [])
    (hls : members.toList = joined ls) (hfeeds : ∀ line ∈ ls, '\n' ∉ line)
    (hreturn : '\r' ∉ members.toList) (own : Bool) :
    Source.ofText (classText own name clauses members) = .written (["<?php".toList, []] ++
      (classHeader own name.toList clauses.toList ++ (ls ++ [['}']]))) := by
  have htext : (classText own name clauses members).toList = unlines (["<?php".toList, []] ++
      (classHeader own name.toList clauses.toList ++ (ls ++ [['}']]))) ++ [] := by
    rw [classText, toList_joinLines, map_append, joined_append (by simp), map_append,
      map_map]
    simp [Function.comp_def, joined_cons, hls, unlines_eq_joined hne]
  have hlines : ∀ line ∈ ["<?php".toList, []] ++ (classHeader own name.toList clauses.toList ++
      (ls ++ [['}']])), IsLine line := by
    refine forall_mem_append.mpr ⟨by decide +kernel, forall_mem_append.mpr
      ⟨fun line hline => (plain_classHeader hname hclauses line hline).1,
        forall_mem_append.mpr ⟨fun line hline => ⟨hfeeds line hline, fun hc => ?_⟩, by decide⟩⟩⟩
    exact hreturn (hls ▸ mem_joined_of_mem hline hc)
  rw [Source.ofText, htext, lines_unlines_append hlines, show lines [] = [] from rfl, append_nil]
  rfl

/-- **Written classes are read.** The first class of the text has the members that its body
declares. -/
theorem first?_classText {name clauses members : String} {added : Members}
    (hname : IsName name.toList) (hclauses : IsClauses clauses.toList)
    (h : DeclaresText members added) (own : Bool) :
    ∃ outline k, Outline.first? (Source.ofText (classText own name clauses members)) = some outline ∧
      outline.decl.name = name ∧ outline.toMembers.moved 0 = added.moved k := by
  obtain ⟨⟨ls, hne, hls, hdeclares⟩, hreturn⟩ := h
  obtain ⟨empty, hempty, -, hemptyName, hopen, hclose⟩ := exists_emptyClass hname hclauses own
  have hheader := @isClosedLine_classHeader own _ _ hname hclauses
  have hfront : ∀ line ∈ ["<?php".toList, []], IsClosedLine line := by
    have hplain : ∀ line ∈ ["<?php".toList, []], '\n' ∉ line ∧ ∀ c ∈ line, IsPlain c := by decide +kernel
    exact fun line hline => .of_plain (hplain line hline).1 (hplain line hline).2
  obtain ⟨outline, houtline, hmembers, -, hname', -⟩ := @Outline.ofDeclaration_declares []
    (classHeader own name.toList clauses.toList) [] [['}']] ["<?php".toList, []] ls empty {} added hempty
    (by simpa using hopen) (by simpa using hclose) nofun rfl (fun line hline => (hfront line hline).1)
    (after_closedLines hfront) (fun line hline => (hheader line hline).1) (after_closedLines hheader)
    .nil hdeclares
  refine ⟨outline, _, ?_, by rw [hname', hemptyName, String.ofList_toList], hmembers⟩
  rw [ofText_classText hname hclauses hne hls hdeclares.lines hreturn, Outline.first?,
    Source.firstDeclaration_written hname hclauses hfront (by decide +kernel)]
  exact houtline

/-! ### Members that wire services up -/

variable {style : CodeStyle} {conventions : Conventions} {bindings : List Binding}

/-- The members of a class that is wired up: properties, a constructor and a factory. -/
def freshMembers (style : CodeStyle) (className : String) (conventions : Conventions)
    (containerType : String) (bindings : List Binding) : String :=
  fields style bindings ++ "\n\n" ++ freshConstructor style className conventions bindings ++ "\n\n" ++
    freshFactory style conventions containerType (factoryArguments conventions bindings)

/-- Members that have bindings wired up. -/
structure Wires (style : CodeStyle) (conventions : Conventions) (bindings : List Binding)
    (members : Members) : Prop where
  fields : members.fields.map (fun field => (field.name, field.typeHint, field.promoted)) =
    bindings.map fun binding => (binding.field, binding.typeHint, false)
  constructor : ∃ ctor, members.constructor = some ctor ∧
    ctor.params.map (·.name) = (freshSlots conventions bindings).map (·.name) ∧
    (∀ param ∈ ctor.params, param.promoted = false) ∧ ctor.body = constructorBody style conventions bindings
  factory : ∃ factory, members.factory = some factory ∧
    factory.serviceIds = bindings.map (·.serviceId) ∧ ∃ trailing first last, factory.shape =
      .newStatic "static" (factoryArguments conventions bindings) trailing first last
  below : ∀ factory ∈ members.factory, ∀ returnLine ∈ factory.shape.returnLine?,
    factory.openBraceLine < returnLine

/-- What moved members wire up, they wire up where they were. -/
theorem Wires.of_moved {members : Members} {k : Nat}
    (h : Wires style conventions bindings (members.moved k)) : Wires style conventions bindings members := by
  obtain ⟨hfields, ⟨ctor, hctor, hparams, hpromoted, hbody⟩, ⟨factory, hfactory, hids, trailing, first, last,
    hshape⟩, hbelow⟩ := h
  obtain ⟨ctor', hctor', rfl⟩ := Option.map_eq_some_iff.mp hctor
  obtain ⟨factory', hfactory', rfl⟩ := Option.map_eq_some_iff.mp hfactory
  refine ⟨?_, ⟨ctor', hctor', hparams, hpromoted, hbody⟩, ⟨factory', hfactory', hids, trailing,
    FactoryShape.newStatic_of_moved hshape⟩, fun made hmade =>
      Factory.below_moved_iff.mp (hbelow _ (Members.factory_moved hmade k))⟩
  simpa [Members.moved, Field.moved, Function.comp_def] using hfields

theorem Wires.moved {members : Members} (h : Wires style conventions bindings members) (k : Nat) :
    Wires style conventions bindings (members.moved k) := by
  obtain ⟨hfields, ⟨ctor, hctor, hparams, hpromoted, hbody⟩, ⟨factory, hfactory, hids, trailing, first, last,
    hshape⟩, hbelow⟩ := h
  refine ⟨?_, ⟨_, Members.constructor_moved hctor k, hparams, hpromoted, hbody⟩,
    ⟨_, Members.factory_moved hfactory k, hids, trailing, _, _, congrArg (FactoryShape.moved k) hshape⟩, ?_⟩
  · simpa [Members.moved, Field.moved, Function.comp_def] using hfields
  · intro made hmade
    obtain ⟨origin, horigin, rfl⟩ := Option.map_eq_some_iff.mp hmade
    exact Factory.below_moved_iff.mpr (hbelow origin horigin)

/-- Rendered members declare what wires the bindings up. -/
theorem freshMembers_declares (hstyle : style.Writable) {className containerType : String}
    (hclass : IsName className.toList) (hconventions : conventions.Writable)
    (htype : IsTypeOf paramModifiers (some containerType.toList))
    (h : ∀ binding ∈ bindings, binding.Writable) (hne : bindings ≠ []) :
    ∃ added, DeclaresText (freshMembers style className conventions containerType bindings) added ∧
      Wires style conventions bindings added := by
  obtain ⟨fields, hfields, hnoCtor, hnoFactory, hread⟩ := fields_declares hstyle h hne
  obtain ⟨built, ctor, hbuilt, hbuiltFields, hbuiltFactory, hctor, hparams, hpromoted, hbody⟩ :=
    freshConstructor_declares hstyle hclass hconventions h hne
  obtain ⟨made, factory, hmadeText, hmadeFields, hmadeCtor, hfactory, hids, trailing, first, last, hbelow, hshape⟩ :=
    freshFactory_declares hstyle hconventions htype h hne
  obtain ⟨j, hj⟩ := hfields.append_blank hbuilt
  obtain ⟨k, hk⟩ := hj.append_blank hmadeText
  have hmade : ((fields ++ built.moved j) ++ made.moved k).factory = some (factory.moved k) := by
    simp [Members.append_def, Members.moved, hnoFactory, hbuiltFactory, hfactory]
  refine ⟨_, hk, ?_, ⟨ctor.moved j, ?_, hparams, hpromoted, hbody⟩,
    ⟨factory.moved k, hmade, hids, trailing, _, _, congrArg (FactoryShape.moved k) hshape⟩, ?_⟩
  · simpa [Members.append_def, Members.moved, hbuiltFields, hmadeFields] using hread
  · simp [Members.append_def, Members.moved, hnoCtor, hctor]
  · intro found hfound
    cases hmade.symm.trans hfound
    refine Factory.below_moved_iff.mpr fun line hline => ?_
    rw [hshape] at hline
    exact Option.some.inj hline ▸ hbelow

end Render

/-! ### Where a service is stored -/

variable {style : CodeStyle} {conventions : Conventions} {bindings : List Binding}

/-- The body of a new constructor assigns each parameter to its property. -/
theorem findSome?_constructorBody (hstyle : style.Writable) (hconventions : conventions.Writable)
    (h : ∀ binding ∈ bindings, binding.Writable) (hparams : (bindings.map (·.param)).Nodup)
    {binding : Binding} (hbinding : binding ∈ bindings) :
    (Render.constructorBody style conventions bindings).findSome? (assignedField · binding.param) =
      some binding.field := by
  have hpreamble : (conventions.preamble.toList.map (style.bodyIndent ++ ·)).findSome?
      (assignedField · binding.param) = none := by
    refine findSome?_eq_none_iff.mpr fun line hline => ?_
    obtain ⟨statement, hstatement, rfl⟩ := mem_map.mp hline
    have hplain := hconventions.preamble statement (by simpa using hstatement)
    refine assignedField_eq_none ?_ _
    rw [String.toList_append, mem_append]
    rintro (hmem | hmem)
    · exact hstyle.bodyIndent.1.not_mem (by decide) hmem
    · exact (hplain _ hmem).2 rfl
  rw [Render.constructorBody, findSome?_append, hpreamble, Option.none_or, findSome?_map]
  induction bindings with
  | nil => cases hbinding
  | cons first rest ih =>
    obtain ⟨hfirst, hrest⟩ := forall_mem_cons.mp h
    obtain ⟨hnew, hnodup⟩ := nodup_cons.mp hparams
    have hassigned := assignedField_assignment hfirst.field hfirst.param hstyle.bodyIndent.1 binding.param
    rw [findSome?_cons, Function.comp_apply, hassigned]
    rcases mem_cons.mp hbinding with rfl | hmem
    · rw [if_pos rfl]
    · have hne : first.param ≠ binding.param := fun heq =>
        hnew (mem_map.mpr ⟨binding, hmem, heq.symm⟩)
      rw [if_neg hne]
      exact ih hrest hnodup hmem

/-- The argument that fetches a service stands behind the ones of the role, at the place of
its binding. -/
theorem findIdx?_factoryArguments (hconventions : conventions.Writable)
    (h : ∀ binding ∈ bindings, binding.Writable) (hids : (bindings.map (·.serviceId)).Nodup)
    {i : Nat} {binding : Binding} (hi : bindings[i]? = some binding) :
    (factoryArguments conventions bindings).findIdx? (containerGetId · == some binding.serviceId) =
      some (conventions.leadingParams.length + i) := by
  have hleading : (conventions.leadingParams.map (·.expression)).findIdx?
      (containerGetId · == some binding.serviceId) = none := by
    refine findIdx?_eq_none_iff.mpr fun entry hentry => ?_
    obtain ⟨param, hparam, rfl⟩ := mem_map.mp hentry
    rw [(hconventions.leading param hparam).fetches.reads]
    rfl
  have hservices : bindings.findIdx? ((containerGetId · == some binding.serviceId) ∘
      (fetchExpression "container" ·.serviceId)) = some i := by
    obtain ⟨hlt, rfl⟩ := List.getElem?_eq_some_iff.mp hi
    refine findIdx?_eq_some_iff_getElem.mpr ⟨hlt, ?_, fun j hj => ?_⟩
    · rw [Function.comp_apply, (h _ (getElem_mem hlt)).fetches.reads]
      simp
    · have hne := pairwise_iff_getElem.mp hids j i (by simp; omega) (by simpa using hlt) hj
      rw [getElem_map, getElem_map] at hne
      rw [Function.comp_apply, (h _ (getElem_mem _)).fetches.reads]
      simpa using hne
  rw [factoryArguments, findIdx?_append, hleading, findIdx?_map, hservices]
  simp [Nat.add_comm]

/-- **Wired services are found.** Each service is stored in the property of its binding. -/
theorem Render.Wires.fieldForService? {outline : Outline} (hstyle : style.Writable)
    (hconventions : conventions.Writable) (h : ∀ binding ∈ bindings, binding.Writable)
    (hids : (bindings.map (·.serviceId)).Nodup) (hparams : (bindings.map (·.param)).Nodup)
    (hwires : Render.Wires style conventions bindings outline.toMembers) :
    ∀ binding ∈ bindings, outline.fieldForService? binding.serviceId = some binding.field := by
  intro binding hbinding
  obtain ⟨-, ⟨ctor, hctor, hnames, hpromoted, hbody⟩, ⟨factory, hfactory, -, trailing, first, last, hshape⟩⟩ :=
    hwires
  obtain ⟨i, hi⟩ := mem_iff_getElem?.mp hbinding
  have hindex := findIdx?_factoryArguments hconventions h hids hi
  have hname : (ctor.params.map (·.name))[conventions.leadingParams.length + i]? = some binding.param := by
    rw [hnames, freshSlots, map_append, getElem?_append_right (by simp)]
    simp [hi, Binding.slot]
  rw [getElem?_map, Option.map_eq_some_iff] at hname
  obtain ⟨param, hparam, hname⟩ := hname
  have hfield : outline.fieldForParam? param.name = some binding.field := by
    have hfound : (ctor.param? param.name).isSome = true :=
      find?_isSome.mpr ⟨param, mem_of_getElem? hparam, by simp⟩
    obtain ⟨found, hfound⟩ := Option.isSome_iff_exists.mp hfound
    have hplain := hpromoted found (mem_of_find?_eq_some hfound)
    simp only [Outline.fieldForParam?, hctor, hfound, Option.bind_eq_bind, Option.bind_some, hplain,
      Bool.false_eq_true, if_false]
    rw [hbody, hname]
    exact findSome?_constructorBody hstyle hconventions h hparams hbinding
  simp only [Outline.fieldForService?, hfactory, hshape, hctor, hindex, hparam, Option.bind_eq_bind,
    Option.bind_some]
  exact hfield

/-- **Wiring survives.** A class that is written with new properties, a new constructor and
a new factory is found in its text, with the properties in order, the parameters of the role
and then the new ones, the arguments that were passed on, and each service in its property. -/
theorem freshWiring_roundTrip {role : Role} {className clauses containerType : String}
    (hrole : role.conventions? = some conventions) (hclass : IsName className.toList)
    (hclauses : IsClauses clauses.toList) (hstyle : style.Writable)
    (htype : IsTypeOf paramModifiers (some containerType.toList))
    (h : ∀ binding ∈ bindings, binding.Writable) (hne : bindings ≠ [])
    (hids : (bindings.map (·.serviceId)).Nodup) (hparams : (bindings.map (·.param)).Nodup) :
    ∃ outline ctor factory,
      Outline.first? (Source.ofText (Render.classText style.braceOnOwnLine className clauses
        (Render.freshMembers style className conventions containerType bindings))) = some outline ∧
      outline.decl.name = className ∧ outline.constructor = some ctor ∧ outline.factory = some factory ∧
      outline.fields.map (fun field => (field.name, field.typeHint, field.promoted)) =
        bindings.map (fun binding => (binding.field, binding.typeHint, false)) ∧
      ctor.params.map (·.name) =
        conventions.leadingParams.map (·.slot.name) ++ bindings.map (·.param) ∧
      factory.arguments = conventions.leadingParams.map (·.expression) ++
        bindings.map (fetchExpression "container" ·.serviceId) ∧
      factory.serviceIds = bindings.map (·.serviceId) ∧
      ∀ binding ∈ bindings, outline.fieldForService? binding.serviceId = some binding.field := by
  have hconventions := Role.writable_conventions hrole
  obtain ⟨added, hdeclares, hwires⟩ :=
    Render.freshMembers_declares hstyle hclass hconventions htype h hne
  obtain ⟨outline, k, houtline, hname, hmembers⟩ :=
    Render.first?_classText hclass hclauses hdeclares style.braceOnOwnLine
  have hread : Render.Wires style conventions bindings outline.toMembers :=
    .of_moved (hmembers ▸ hwires.moved k)
  have hfields := hread.fieldForService? hstyle hconventions h hids hparams
  obtain ⟨hnames, ⟨ctor, hctor, hctorParams, -, -⟩, ⟨factory, hfactory, hserviceIds, trailing, first, last,
    hshape⟩⟩ := hread
  refine ⟨outline, ctor, factory, houtline, hname, hctor, hfactory, hnames, ?_, ?_, hserviceIds, hfields⟩
  · rw [hctorParams, freshSlots, map_append, map_map, map_map]
    rfl
  · rw [Factory.arguments, hshape]
    rfl

/-- A mailer with a type and a clock without one. -/
def mailerAndClock : List Binding :=
  [ ⟨"mail", "mailer", "mailer", some "\\Mail", "\\Mail", "mailer", none, false, false⟩,
    ⟨"time", "clock", "time", none, "mixed", "clock", none, false, false⟩ ]

/-- The clock of a plugin is read back from its argument, parameter and assignment. -/
theorem roundTrip_mailerAndClock :
    ∃ outline, Outline.first? (Source.ofText (Render.classText true "Page" " extends Base"
        (Render.freshMembers ⟨"\t", "  ", true⟩ "Page" .pluginFactory "Container" mailerAndClock))) =
          some outline ∧
      outline.fieldForService? "time" = some "clock" := by
  have hwritable : ∀ binding ∈ mailerAndClock, binding.Writable := by
    refine forall_mem_cons.mpr ⟨⟨?_, ?_, ?_, ?_, ?_, ?_, rfl⟩,
      forall_mem_cons.mpr ⟨⟨?_, ?_, ?_, ?_, ?_, ?_, rfl⟩, nofun⟩⟩
    all_goals decide +kernel
  obtain ⟨outline, -, -, houtline, -, -, -, -, -, -, -, hfields⟩ :=
    @freshWiring_roundTrip ⟨"\t", "  ", true⟩ _ mailerAndClock .pluginFactory "Page" " extends Base"
      "Container" rfl (by decide +kernel) (by decide +kernel) ⟨by decide +kernel, by decide +kernel⟩
      (by decide +kernel) hwritable (by decide) (by simp [mailerAndClock]) (by simp [mailerAndClock])
  exact ⟨outline, houtline, hfields _ (mem_cons_of_mem _ mem_cons_self)⟩

end ServiceInjection
