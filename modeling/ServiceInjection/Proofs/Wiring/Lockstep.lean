import ServiceInjection.Wiring.Edits

/-!
# Wiring.Lockstep

The parameters of the constructor and the arguments of the factory. The two lists
are put together from different data: the parameters from the constructor or from
the role, the arguments from the factory, or from the role and the types of the
parameters. `Subject.frontSlots` and `Subject.frontArguments` say what stands in
front of the new entries. Both lists have the same length, so each new parameter
gets the service that it is declared for.
-/

namespace ServiceInjection

open List

variable {entries : List String} {bindings : List Binding} {edit : Edit} {factory : Option Edit}
  {containerType : String} {style : CodeStyle}

/-! ### Lists in a text -/

/-- What a line of a class may be indented with: blanks, or what its layout gives. The unit of
a layout is configured and may be any text, so it is not known to be blank. -/
inductive CodeStyle.Indents (style : CodeStyle) : String → Prop
  | blank {indent : String} (h : ∀ c ∈ indent.toList, Text.isBlank c = true) :
      style.Indents indent
  | member : style.Indents style.memberIndent
  | deeper {indent : String} (h : style.Indents indent) : style.Indents (indent ++ style.unit)

/-- The texts of a list: its entries on one line, or with one entry a line and maybe
a comma behind the last one. A list on lines of its own ends with the indentation of
the line that closes it. -/
inductive ListText (style : CodeStyle) (entries : List String) : String → Prop
  | oneLine (blanks : String) (hblanks : ∀ c ∈ blanks.toList, Text.isBlank c = true) :
      ListText style entries (", ".intercalate entries ++ blanks)
  | oneALine {indent close : String} (trailing : Bool) (hindent : style.Indents indent)
      (hclose : style.Indents close) : ListText style entries
        ("\n" ++ Render.joinLines (Render.listLines indent trailing entries) ++ "\n" ++ close)

/-- Whether a text holds a list of entries between two delimiters. -/
def HoldsList (style : CodeStyle) (start stop : String) (entries : List String) (text : String) :
    Prop :=
  ∃ before list behind, ListText style entries list ∧
    text = before ++ start ++ list ++ stop ++ behind

namespace HoldsList

variable {start stop text : String} {entries : List String}

theorem of_inside (h : HoldsList style start stop entries text) (before behind : String) :
    HoldsList style start stop entries (before ++ text ++ behind) := by
  obtain ⟨front, list, back, hlist, rfl⟩ := h
  exact ⟨before ++ front, list, back ++ behind, hlist, by simp only [String.append_assoc]⟩

end HoldsList

namespace Render

theorem joinLines_append {front back : List String} (hfront : front ≠ []) (hback : back ≠ []) :
    joinLines (front ++ back) = joinLines front ++ "\n" ++ joinLines back :=
  String.intercalate_append_of_ne_nil hfront hback

/-- Lines among others are a part of the text. -/
theorem exists_joinLines (front : List String) {mid : List String} (back : List String)
    (hmid : mid ≠ []) :
    ∃ before behind, joinLines (front ++ mid ++ back) = before ++ joinLines mid ++ behind := by
  have hfront : ∃ before, joinLines (front ++ mid) = before ++ joinLines mid := by
    cases front with
    | nil => exact ⟨"", by simp⟩
    | cons line front => exact ⟨_, joinLines_append (cons_ne_nil _ _) hmid⟩
  obtain ⟨before, hbefore⟩ := hfront
  cases back with
  | nil => exact ⟨before, "", by simp [hbefore]⟩
  | cons line back =>
    refine ⟨before, "\n" ++ joinLines (line :: back), ?_⟩
    rw [joinLines_append (by simp [hmid]) (cons_ne_nil _ _), hbefore]
    simp only [String.append_assoc]

/-- A list that some of the lines hold. -/
theorem holdsList_joinLines {start stop : String} {mid : List String}
    (h : HoldsList style start stop entries (joinLines mid)) (hmid : mid ≠ [])
    (front back : List String) :
    HoldsList style start stop entries (joinLines (front ++ mid ++ back)) := by
  obtain ⟨before, behind, heq⟩ := exists_joinLines front back hmid
  exact heq ▸ h.of_inside before behind

theorem listLines_ne_nil (h : entries ≠ []) (indent : String) (trailing : Bool) :
    listLines indent trailing entries ≠ [] := by
  cases entries with
  | nil => exact absurd rfl h
  | cons entry entries => cases entries <;> simp [listLines, withCommas]

/-- Entries on one line with the delimiters. -/
theorem holdsList_oneLine (start stop : String) (entries : List String) {blanks : String}
    (h : ∀ c ∈ blanks.toList, Text.isBlank c = true) :
    HoldsList style start stop entries
      (joinLines [start ++ ", ".intercalate entries ++ (blanks ++ stop)]) := by
  refine ⟨"", _, "", .oneLine blanks h, ?_⟩
  simp [joinLines, String.append_assoc]

/-- Entries on lines of their own between the lines of the delimiters. -/
theorem holdsList_listLines (h : entries ≠ []) {indent close : String}
    (hindent : style.Indents indent) (hclose : style.Indents close) (start stop : String)
    (trailing : Bool) : HoldsList style start stop entries
      (joinLines (start :: listLines indent trailing entries ++ [close ++ stop])) := by
  refine ⟨"", _, "", .oneALine trailing hindent hclose, ?_⟩
  have hlines := listLines_ne_nil h indent trailing
  rw [joinLines_append (cons_ne_nil _ _) (cons_ne_nil _ _),
    ← singleton_append, joinLines_append (cons_ne_nil _ _) hlines]
  simp [joinLines, String.append_assoc]

/-! ### Signatures and return statements -/

theorem signature_holds (style : CodeStyle) (head : String) {params : List String}
    (h : params ≠ []) :
    HoldsList style (style.memberIndent ++ head ++ "(") (")" ++ style.openBrace) params
      (joinLines (signature style head params)) := by
  have hsingle : HoldsList style (style.memberIndent ++ head ++ "(") (")" ++ style.openBrace) params
      (joinLines [style.memberIndent ++ head ++ "(" ++ ", ".intercalate params ++ ")" ++
        style.openBrace]) := by
    have hlist := @holdsList_oneLine style (style.memberIndent ++ head ++ "(")
      (")" ++ style.openBrace) params "" (by simp)
    simpa [String.append_assoc] using hlist
  have hmember : style.Indents style.memberIndent := .member
  have hspread := holdsList_listLines h (.deeper .member) hmember
    (style.memberIndent ++ head ++ "(") (")" ++ style.openBrace) false
  rw [← String.append_assoc] at hspread
  unfold signature
  dsimp only
  split
  · split
    · exact holdsList_joinLines hsingle (cons_ne_nil _ _) [] _
    · exact holdsList_joinLines hspread (cons_ne_nil _ _) [] _
  · split
    · exact hsingle
    · exact hspread

theorem signature_ne_nil (style : CodeStyle) (head : String) (params : List String) :
    signature style head params ≠ [] := by
  unfold signature
  dsimp only
  split <;> split <;> simp

theorem freshConstructor_holds (style : CodeStyle) (className : String) (conventions : Conventions)
    (h : bindings ≠ []) :
    HoldsList style (style.memberIndent ++ "public function __construct" ++ "(")
      (")" ++ style.openBrace) (freshParams conventions bindings)
      (freshConstructor style className conventions bindings) := by
  have hparams : freshParams conventions bindings ≠ [] := by simp [freshParams, h]
  unfold freshConstructor
  dsimp only
  rw [append_assoc _ _ [_], append_assoc _ _ (_ ++ [_])]
  exact holdsList_joinLines (signature_holds style _ hparams) (signature_ne_nil style _ _) _ _

theorem mergedSignature_ne_nil (style : CodeStyle) (source : Source) (ctor : Constructor)
    (bindings : List Binding) : mergedSignature style source ctor bindings ≠ [] := by
  unfold mergedSignature
  dsimp only
  split <;> simp

/-- The signature of an extended constructor, whose end loses the blanks in front. -/
theorem mergedSignature_holds (style : CodeStyle) (source : Source) (ctor : Constructor)
    (h : bindings ≠ []) :
    HoldsList style ctor.signatureStart (String.ofList (Text.trimStart ctor.signatureEnd.toList))
      (mergedParams ctor bindings) (joinLines (mergedSignature style source ctor bindings)) := by
  have hparams : mergedParams ctor bindings ≠ [] := by simp [mergedParams, h]
  unfold mergedSignature
  dsimp only
  split
  · have hend : ctor.signatureEnd = String.ofList (Text.leadingBlanks ctor.signatureEnd.toList) ++
        String.ofList (Text.trimStart ctor.signatureEnd.toList) := by
      rw [← String.ofList_append, Text.leadingBlanks, Text.trimStart,
        takeWhile_append_dropWhile, String.ofList_toList]
    have hblanks : ∀ c ∈ (String.ofList (Text.leadingBlanks ctor.signatureEnd.toList)).toList,
        Text.isBlank c = true := by
      rw [String.toList_ofList]
      exact all_eq_true.mp all_takeWhile
    have hlist := @holdsList_oneLine style ctor.signatureStart
      (String.ofList (Text.trimStart ctor.signatureEnd.toList)) (mergedParams ctor bindings) _ hblanks
    rwa [← hend] at hlist
  · have hindent : ∀ n, style.Indents (String.ofList (Text.leadingBlanks (source.raw n))) :=
      fun n => .blank (by rw [String.toList_ofList]; exact all_eq_true.mp all_takeWhile)
    split
    · exact holdsList_listLines hparams (hindent _) (hindent _) _ _ _
    · exact holdsList_listLines hparams (.deeper .member) .member _ _ _

theorem mergedConstructor_holds (style : CodeStyle) (source : Source) (ctor : Constructor)
    (h : bindings ≠ []) (body : List String) :
    HoldsList style ctor.signatureStart (String.ofList (Text.trimStart ctor.signatureEnd.toList))
      (mergedParams ctor bindings) (mergedConstructor style source ctor bindings body) := by
  unfold mergedConstructor
  dsimp only
  rw [append_assoc _ _ [_], append_assoc _ _ (_ ++ [_])]
  exact holdsList_joinLines (mergedSignature_holds style source ctor h)
    (mergedSignature_ne_nil style source ctor bindings) _ _

theorem returnNew_holds {indent : String} (hindent : style.Indents indent) (keyword : String)
    {arguments : List String} (h : arguments ≠ []) (trailing : Bool) :
    HoldsList style ("return new " ++ keyword ++ "(") ");" arguments
      (returnNew indent style.unit keyword arguments trailing) := by
  unfold returnNew
  rw [if_neg (by simpa using h), String.append_assoc, String.append_assoc]
  obtain ⟨before, list, behind, hlist, htext⟩ := holdsList_listLines h (.deeper hindent) hindent
    (indent ++ ("return new " ++ (keyword ++ "("))) ");" trailing
  exact ⟨before ++ indent, list, behind, hlist, by simp only [htext, String.append_assoc]⟩

end Render

/-! ### What stands in front of the new entries -/

/-- A parameter of the constructor that is written: its name and its declaration. -/
structure Slot where
  name : String
  declaration : String

/-- The place of an old parameter. -/
def Param.slot (param : Param) : Slot := ⟨param.name, param.text⟩

/-- The place of a parameter that the role requires. -/
def LeadingParam.slot (param : LeadingParam) : Slot :=
  ⟨String.ofList (param.expression.toList.drop 1), param.declaration⟩

/-- The place of a new parameter. -/
def Binding.slot (binding : Binding) : Slot := ⟨binding.param, binding.declaration⟩

/-- The arguments that a factory passes to a new object. -/
def Factory.arguments (factory : Factory) : List String :=
  match factory.shape with
  | .newStatic _ arguments _ _ _ => arguments
  | _ => []

/-- The class that a factory builds, as it writes it. -/
def Factory.keyword (factory : Factory) : String :=
  match factory.shape with
  | .newStatic keyword _ _ _ _ => keyword
  | _ => "static"

namespace Subject

/-- The parameters in front of the new ones: those of the constructor, or the ones that
the role requires of a new constructor. -/
def frontSlots (subject : Subject) : List Slot :=
  match subject.outline.constructor with
  | some ctor => ctor.params.map (·.slot)
  | none => subject.conventions.leadingParams.map (·.slot)

/-- The text in front of the parameters. -/
def signatureStart (subject : Subject) : String :=
  match subject.outline.constructor with
  | some ctor => ctor.signatureStart
  | none => subject.style.memberIndent ++ "public function __construct" ++ "("

/-- The text behind the parameters, without blanks in front. -/
def signatureEnd (subject : Subject) : String :=
  match subject.outline.constructor with
  | some ctor => String.ofList (Text.trimStart ctor.signatureEnd.toList)
  | none => ")" ++ subject.style.openBrace

/-- The services of the parameters behind those that the role requires, by their types. -/
def paramServices (subject : Subject) (directory : Directory) : List (Option String) :=
  match subject.outline.constructor with
  | some ctor => (ctor.params.drop subject.conventions.leadingParams.length).map
      (ExistingWiring.serviceOfParam directory subject.outline)
  | none => []

/-- The variable that holds the container in the factory. -/
def containerVar (subject : Subject) : String :=
  match subject.outline.factory with
  | some factory => factory.containerVar
  | none => "container"

/-- Whether a text holds the parameters in front and the new ones. -/
def HoldsParams (subject : Subject) (bindings : List Binding) (text : String) : Prop :=
  HoldsList subject.style subject.signatureStart subject.signatureEnd
    (subject.frontSlots.map (·.declaration) ++ bindings.map (·.declaration)) text

end Subject

/-! ### New factories -/

section

variable {subject : Subject} {directory : Directory} {bindings : List Binding}

/-- What a plan does goes with what the class has, and the lists that it extends go with
each other. -/
inductive MethodPlan.Aligns (outline : Outline) (leading : List String) : MethodPlan → Prop
  | create (hctor : outline.constructor = none) (hfactory : outline.factory = none) :
      MethodPlan.Aligns outline leading ⟨.create, .create⟩
  | extendConstructor {ctor : Constructor} (hctor : outline.constructor = some ctor)
      (hfactory : outline.factory = none) (hleading : leading.length ≤ ctor.params.length) :
      MethodPlan.Aligns outline leading ⟨.merge, .create⟩
  | extendFactory {factory : Factory} (hfactory : outline.factory = some factory)
      {instanceVar : String} {assignments : List Assignment} {returnLine : Nat}
      (hshape : factory.shape = .instanceAssign instanceVar assignments returnLine) :
      MethodPlan.Aligns outline leading ⟨.keep, .merge⟩
  | extendBoth {ctor : Constructor} {factory : Factory} (hctor : outline.constructor = some ctor)
      (hfactory : outline.factory = some factory) {keyword : String} {arguments : List String}
      {trailing : Bool} {returnLine returnEndLine : Nat}
      (hshape : factory.shape = .newStatic keyword arguments trailing returnLine returnEndLine)
      (hlength : ctor.params.length = arguments.length) :
      MethodPlan.Aligns outline leading ⟨.merge, .merge⟩
  | addConstructor {factory : Factory} (hctor : outline.constructor = none)
      (hfactory : outline.factory = some factory) {keyword : String} {trailing : Bool}
      {returnLine returnEndLine : Nat}
      (hshape : factory.shape = .newStatic keyword leading trailing returnLine returnEndLine) :
      MethodPlan.Aligns outline leading ⟨.create, .merge⟩

theorem planMethods_aligns {outline : Outline} {leading : List String} {plan : MethodPlan}
    (h : planMethods outline leading = .ok plan) : plan.Aligns outline leading := by
  unfold planMethods at h
  split at h
  · rename_i hfactory hctor
    cases h
    exact .create hctor hfactory
  · rename_i ctor hfactory hctor
    split at h
    · cases h
    · rename_i hleading
      cases h
      exact .extendConstructor hctor hfactory (Nat.not_lt.mp hleading)
  · rename_i factory hfactory
    split at h
    · rename_i hshape
      cases h
      exact .extendFactory hfactory hshape
    · cases h
    · rename_i hshape
      unfold planNewStatic at h
      split at h
      · cases h
      · split at h
        · rename_i ctor hctor
          split at h
          · rename_i hlength
            cases h
            exact .extendBoth hctor hfactory hshape (beq_iff_eq.mp hlength)
          · cases h
        · rename_i hctor
          split at h
          · rename_i hleading
            cases h
            exact .addConstructor hctor hfactory (beq_iff_eq.mp hleading ▸ hshape)
          · cases h

/-- A plan extends the methods that the class has and creates the others, but it keeps a
constructor if the factory sets properties of an instance. -/
theorem MethodPlan.Aligns.plan_eq {outline : Outline} {leading : List String} {plan : MethodPlan}
    (h : plan.Aligns outline leading) :
    plan = ⟨if outline.assignsInstance then .keep
      else if outline.constructor.isSome then .merge else .create,
      if outline.factory.isSome then .merge else .create⟩ := by
  rw [Outline.assignsInstance]
  cases h with
  | create hctor hfactory => simp [hctor, hfactory]
  | extendConstructor hctor hfactory hleading => simp [hctor, hfactory]
  | extendFactory hfactory hshape => simp [hfactory, hshape]
  | extendBoth hctor hfactory hshape hlength => simp [hctor, hfactory, hshape]
  | addConstructor hctor hfactory hshape => simp [hctor, hfactory, hshape]

/-! ### The lists of the wiring methods -/

variable {plan : MethodPlan} {patches : List Replacement}

theorem methodEdit_holds {start stop description text : String} {after : Option Nat} {leads : Bool}
    (h : HoldsList style start stop entries text) :
    HoldsList style start stop entries (methodEdit subject description after leads text).text := by
  have hinside : ∃ before behind, (methodEdit subject description after leads text).text =
      before ++ text ++ behind := by
    unfold methodEdit
    split
    · exact ⟨"\n\n", "", by simp [Edit.insert]⟩
    · split
      · exact ⟨"", "\n\n", by simp [Edit.insert]⟩
      · exact ⟨_, "\n", rfl⟩
  obtain ⟨before, behind, htext⟩ := hinside
  exact htext ▸ h.of_inside before behind

/-- A constructor that is written has the old parameters and the new ones. -/
theorem constructorEdit_holds
    (hplan : plan.Aligns subject.outline (subject.conventions.leadingParams.map (·.expression)))
    (hbindings : bindings ≠ []) (h : constructorEdit subject plan bindings patches = some edit) :
    subject.HoldsParams bindings edit.text := by
  rw [constructorEdit, hplan.plan_eq] at h
  cases hassigns : subject.outline.assignsInstance with
  | true => simp [hassigns] at h
  | false =>
    cases hctor : subject.outline.constructor with
    | none =>
      have hslots : subject.frontSlots.map (·.declaration) ++ bindings.map (·.declaration) =
          Render.freshParams subject.conventions bindings := by
        simp [Subject.frontSlots, hctor, Render.freshParams, Function.comp_def, LeadingParam.slot]
      obtain rfl := by simpa [hassigns, hctor] using h
      rw [Subject.HoldsParams, hslots, Subject.signatureStart, Subject.signatureEnd, hctor]
      exact methodEdit_holds (Render.freshConstructor_holds _ _ subject.conventions hbindings)
    | some ctor =>
      have hslots : subject.frontSlots.map (·.declaration) ++ bindings.map (·.declaration) =
          Render.mergedParams ctor bindings := by
        simp [Subject.frontSlots, hctor, Render.mergedParams, Function.comp_def, Param.slot]
      obtain rfl := by simpa [hassigns, hctor] using h
      rw [Subject.HoldsParams, hslots, Subject.signatureStart, Subject.signatureEnd, hctor]
      exact Render.mergedConstructor_holds subject.style subject.source ctor hbindings _

/-- The constructor is written unless the factory sets properties of an instance. -/
theorem isSome_constructorEdit
    (hplan : plan.Aligns subject.outline (subject.conventions.leadingParams.map (·.expression))) :
    (constructorEdit subject plan bindings patches).isSome = !subject.outline.assignsInstance := by
  rw [constructorEdit, hplan.plan_eq]
  cases subject.outline.assignsInstance with
  | true => rfl
  | false => cases hctor : subject.outline.constructor <;> simp

end

end ServiceInjection
