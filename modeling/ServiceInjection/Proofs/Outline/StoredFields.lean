import ServiceInjection.Proofs.Outline.Sourced
import ServiceInjection.Outline.Query

/-!
# Outline.StoredFields

Which statement the property of a service is read from. The statements that store services
are looked up in the raw text of a factory and of a constructor body, so one in a comment or
in a literal counts like any other, and the first one decides (`Outline.ReadAt`). Where it
starts in code, the property is stored by code (`Outline.Stores`), and lines without code make
no difference to it (`Outline.fieldForService?_congr`).
-/

namespace ServiceInjection

open Text List

variable {instanceVar field : String} {source : Source} {layout : MethodLayout}

/-! ### The statements of a class -/

/-- A line without the blanks around it. -/
def Line.trimmed (line : Line) : Line :=
  ((line.dropWhile (isBlank ·.char)).reverse.dropWhile (isBlank ·.char)).reverse

@[simp] theorem Line.raw_trimmed (line : Line) : line.trimmed.raw = trim line.raw := by
  simp only [Line.raw, Line.trimmed, trim, trimStart, trimEnd, dropWhile_map, ← map_reverse,
    Function.comp_def]

/-- The lines of a body between two braces: what stands between them if that is on one
line and not blank, the lines between them otherwise. -/
def bodyCells (source : Source) (opening closing : Spot) : List Line :=
  if opening.line == closing.line then
    [(source.between opening closing).trimmed].filter (!·.isEmpty)
  else (Source.span (opening.line + 1) (closing.line - 1)).map source.line

theorem text_bodyCells (source : Source) (opening closing : Spot) :
    (bodyCells source opening closing).map Line.text = bodyLines source opening closing := by
  unfold bodyCells bodyLines
  split
  · have hraw := Line.raw_trimmed (source.between opening closing)
    cases htrimmed : (source.between opening closing).trimmed with
    | nil =>
      rw [htrimmed] at hraw
      rw [← hraw]
      rfl
    | cons cell rest =>
      rw [htrimmed] at hraw
      rw [← hraw]
      rfl
  · rw [map_map]
    rfl

/-- Whether the first argument of the factory that fetches a service and nothing else stands at
some position, and the constructor has the given parameter there. -/
def Outline.Passes (outline : Outline) (serviceId : String) (index : Nat) (param : Param) : Prop :=
  ∃ factory ctor keyword arguments comma returnLine returnEndLine,
    outline.factory = some factory ∧ outline.constructor = some ctor ∧
    factory.shape = .newStatic keyword arguments comma returnLine returnEndLine ∧
    arguments.findIdx? (containerGetId · == some serviceId) = some index ∧
    ctor.params[index]? = some param

/-- How a class stores a service in a property, by statements that start in code: the factory
fills the property of its instance, or it passes the service to a parameter of the constructor
that is promoted or assigned to the property. -/
inductive Outline.Stores (source : Source) (outline : Outline) (serviceId field : String) : Prop
  | filled {factory : Factory} (hfactory : outline.factory = some factory)
      {instanceVar : String} {assignments : List Assignment} {returnLine : Nat}
      (hshape : factory.shape = .instanceAssign instanceVar assignments returnLine)
      {n : Nat} (hn : n ∈ Source.span factory.openBraceLine factory.endLine)
      {m : Match InstanceAssignment} (hm : m ∈ allMatches instanceAssignment (source.raw n))
      (hcode : (source.line n).isCodeAt m.start = true)
      (hvalue : m.value =
        ⟨instanceVar.toList, field.toList, factory.containerVar.toList, serviceId.toList⟩)
  | promoted {index : Nat} {param other : Param} (hpassed : outline.Passes serviceId index param)
      {ctor : Constructor} (hctor : outline.constructor = some ctor) (hother : other ∈ ctor.params)
      (hname : other.name = param.name) (hpromoted : other.promoted = true)
      (hfield : field = param.name)
  | assigned {index : Nat} {param : Param} (hpassed : outline.Passes serviceId index param)
      {ctor : Constructor} (hctor : outline.constructor = some ctor) {layout : MethodLayout}
      (hread : ctor.ReadFrom source layout) {cells : Line}
      (hcells : cells ∈ bodyCells source layout.bodyOpen layout.bodyClose)
      {m : Match (List Char × List Char)} (hm : m ∈ allMatches fieldAssignment cells.raw)
      (hcode : cells.isCodeAt m.start = true)
      (hvalue : m.value = (field.toList, param.name.toList))

/-! ### The statement that is read -/

/-- The first match in some lines whose value is wanted, and its line. Whether it starts in code
plays no part. -/
def readFirst {α : Type} (recognize : List Char → Option (α × List Char)) (wanted : α → Bool)
    (lines : List Line) : Option (Line × Match α) :=
  lines.findSome? fun cells =>
    ((allMatches recognize cells.raw).find? (wanted ·.value)).map (cells, ·)

theorem of_readFirst {α : Type} {recognize : List Char → Option (α × List Char)}
    {wanted : α → Bool} {lines : List Line} {cells : Line} {m : Match α}
    (h : readFirst recognize wanted lines = some (cells, m)) :
    cells ∈ lines ∧ m ∈ allMatches recognize cells.raw ∧ wanted m.value = true := by
  obtain ⟨line, hline, hfound⟩ := exists_of_findSome?_eq_some h
  obtain ⟨m', hm', heq⟩ := Option.map_eq_some_iff.mp hfound
  obtain ⟨rfl, rfl⟩ := Prod.mk.inj heq
  exact ⟨hline, mem_of_find?_eq_some hm', find?_some (p := fun m : Match α => wanted m.value) hm'⟩

/-- The lines of a factory that are searched for assignments to its object: from the one that
makes the object to the one that returns it. -/
def Factory.searched (source : Source) (factory : Factory) (returnLine : Nat) : List Line :=
  match firstLine (Source.span factory.openBraceLine factory.endLine)
      fun n => firstMatch parentCreate (source.code n) with
  | some (first, _) => (Source.span first returnLine).map source.line
  | none => []

/-- Whether an assignment fills a property of the instance with the given service. -/
def InstanceAssignment.fetches (instanceVar containerVar serviceId : String)
    (assignment : InstanceAssignment) : Bool :=
  String.ofList assignment.owner == instanceVar &&
    String.ofList assignment.fetch.container == containerVar &&
    String.ofList assignment.fetch.serviceId == serviceId

/-- Which statement the property of a service is read from: it starts at index `start` of a line,
and is the first one of the text that fetches the service, or that assigns the parameter which
receives it. -/
inductive Outline.ReadAt (source : Source) (outline : Outline) (serviceId field : String)
    (cells : Line) (start : Nat) : Prop
  | filled {factory : Factory} (hfactory : outline.factory = some factory)
      {instanceVar : String} {assignments : List Assignment} {returnLine : Nat}
      (hshape : factory.shape = .instanceAssign instanceVar assignments returnLine)
      {m : Match InstanceAssignment}
      (hfirst : readFirst instanceAssignment (·.fetches instanceVar factory.containerVar serviceId)
        (factory.searched source returnLine) = some (cells, m))
      (hstart : m.start = start) (hfield : m.value.field = field.toList)
  | assigned {index : Nat} {param other : Param} (hpassed : outline.Passes serviceId index param)
      {ctor : Constructor} (hctor : outline.constructor = some ctor)
      (hother : ctor.param? param.name = some other) (hplain : other.promoted = false)
      {layout : MethodLayout} (hread : ctor.ReadFrom source layout)
      {m : Match (List Char × List Char)}
      (hfirst : readFirst fieldAssignment (String.ofList ·.2 == param.name)
        (bodyCells source layout.bodyOpen layout.bodyClose) = some (cells, m))
      (hstart : m.start = start) (hfield : m.value.1 = field.toList)

/-- Whether a service is passed to a promoted parameter. -/
def Outline.Promotes (outline : Outline) (serviceId field : String) : Prop :=
  ∃ index param ctor other, outline.Passes serviceId index param ∧
    outline.constructor = some ctor ∧ ctor.param? param.name = some other ∧
    other.promoted = true ∧ field = other.name

/-! ### Factories that fill an instance -/

/-- The assignments of an instance are those of the lines up to its return. -/
theorem instanceShape_eq_assign {containerVar name : String} {found assignments : List Assignment}
    {first count returnLine : Nat}
    (h : instanceShape source instanceVar containerVar found (range' first count) =
      .instanceAssign name assignments returnLine) :
    name = instanceVar ∧ first ≤ returnLine ∧ returnLine < first + count ∧
      assignments = found ++ (Source.span first returnLine).flatMap
        fun n => assignmentsOn instanceVar containerVar (source.line n) := by
  induction count generalizing first found with
  | zero => cases h
  | succ count ih =>
    rw [range'_succ, instanceShape] at h
    split at h
    · injection h with hname hassignments hline
      subst hline
      refine ⟨hname.symm, Nat.le_refl _, by omega, ?_⟩
      rw [← hassignments, Source.span, Nat.add_sub_cancel_left]
      simp
    · obtain ⟨hname, hle, hlt, hassignments⟩ := ih h
      refine ⟨hname, by omega, by omega, ?_⟩
      rw [hassignments, append_assoc, show Source.span first returnLine =
        first :: Source.span (first + 1) returnLine by
          rw [Source.span, Source.span, show returnLine + 1 - first = returnLine - first + 1 by omega,
            range'_succ, Nat.add_sub_add_right], flatMap_cons]

/-- The assignments of a factory are those of the lines that are searched. -/
theorem Factory.ReadFrom.assignments {factory : Factory} (h : factory.ReadFrom source layout)
    {assignments : List Assignment} {returnLine : Nat}
    (hshape : factory.shape = .instanceAssign instanceVar assignments returnLine) :
    assignments = (factory.searched source returnLine).flatMap
        (assignmentsOn instanceVar factory.containerVar) ∧
      ∀ cells ∈ factory.searched source returnLine,
        ∃ n ∈ Source.span factory.openBraceLine factory.endLine, cells = source.line n := by
  have hopen : factory.openBraceLine = layout.bodyOpen.line := by rw [h.eq]; rfl
  have hend : factory.endLine = layout.bodyClose.line := by rw [h.eq]; rfl
  have hbody : FactoryShape.ofBody source factory.containerVar layout.bodyOpen layout.bodyClose =
      .instanceAssign instanceVar assignments returnLine := by
    rw [← hshape, h.eq]
    rfl
  simp only [FactoryShape.ofBody] at hbody
  rw [Factory.searched, hopen, hend]
  split at hbody
  · split at hbody <;> cases hbody
  · split at hbody
    · cases hbody
    · rename_i first m hfirst
      rw [hfirst]
      obtain ⟨k, hk, hsome⟩ := exists_of_findSome?_eq_some hfirst
      obtain ⟨m', -, heq⟩ := Option.map_eq_some_iff.mp hsome
      cases heq
      obtain ⟨rfl, -, hlt, rfl⟩ := instanceShape_eq_assign hbody
      refine ⟨by rw [nil_append, flatMap_map], fun cells hcells => ?_⟩
      obtain ⟨n, hn, rfl⟩ := mem_map.mp hcells
      have hstart := Source.mem_span.mp hk
      have hline := Source.mem_span.mp hn
      exact ⟨n, Source.mem_span.mpr ⟨by omega, by omega⟩, rfl⟩

/-- What is read from the assignments is read from the first one that fetches the service. -/
theorem find?_assignmentsOn (lines : List Line) (instanceVar containerVar serviceId : String) :
    ((lines.flatMap (assignmentsOn instanceVar containerVar)).find?
        (·.serviceId == serviceId)).map (·.field) =
      (readFirst instanceAssignment (·.fetches instanceVar containerVar serviceId) lines).map
        (String.ofList ·.2.value.field) := by
  rw [find?_flatMap, readFirst, map_findSome?, map_findSome?]
  congr 1
  funext cells
  simp only [Function.comp_apply, assignmentsOn, find?_filterMap, Option.map_map]
  have hwanted : ∀ m : Match InstanceAssignment, (Option.any (·.serviceId == serviceId)
      (if String.ofList m.value.owner == instanceVar &&
          String.ofList m.value.fetch.container == containerVar then
        some (⟨String.ofList m.value.field, String.ofList m.value.fetch.serviceId⟩ : Assignment)
      else none)) = m.value.fetches instanceVar containerVar serviceId := by
    intro m
    rw [InstanceAssignment.fetches]
    split
    · rename_i h
      rw [h]
      rfl
    · rename_i h
      rw [Bool.eq_false_iff.mpr h]
      rfl
  simp only [hwanted]
  cases hfound : (allMatches instanceAssignment cells.raw).find?
      (·.value.fetches instanceVar containerVar serviceId) with
  | none => rfl
  | some m =>
    have hm := find?_some (p := fun m : Match InstanceAssignment => m.value.fetches instanceVar
      containerVar serviceId) hfound
    rw [InstanceAssignment.fetches, Bool.and_eq_true] at hm
    rw [Option.bind_some, if_pos hm.1]
    rfl

/-! ### Constructors -/

/-- What is read from a body is read from the first statement that assigns the parameter. -/
theorem findSome?_assignedField (lines : List Line) (param : String) :
    (lines.map Line.text).findSome? (assignedField · param) =
      (readFirst fieldAssignment (String.ofList ·.2 == param) lines).map
        (String.ofList ·.2.value.1) := by
  rw [findSome?_map, readFirst, map_findSome?]
  congr 1
  funext cells
  simp only [Function.comp_apply, assignedField, Line.text, String.toList_ofList, Option.map_map]
  rfl

theorem Constructor.ReadFrom.body {ctor : Constructor} (h : ctor.ReadFrom source layout) :
    ctor.body = (bodyCells source layout.bodyOpen layout.bodyClose).map Line.text := by
  rw [text_bodyCells, h.eq]
  rfl

/-! ### Services -/

section

variable {n : Nat} {outline : Outline} {serviceId field : String}

/-- The property of a service that is passed to the constructor is that of its parameter. -/
theorem Outline.Passes.fieldForService? {index : Nat} {param : Param}
    (h : outline.Passes serviceId index param) :
    outline.fieldForService? serviceId = outline.fieldForParam? param.name := by
  obtain ⟨factory, ctor, keyword, arguments, comma, returnLine, returnEndLine, hfactory, hctor,
    hshape, hindex, hparam⟩ := h
  simp only [Outline.fieldForService?, hfactory, hctor, hshape, hindex, hparam, Option.bind_eq_bind,
    Option.bind_some]

/-- The property of a parameter is the parameter itself, promoted, or it is read from the body. -/
theorem Constructor.ReadFrom.fieldForParam? {ctor : Constructor} (h : ctor.ReadFrom source layout)
    (hctor : outline.constructor = some ctor) (name : String) :
    outline.fieldForParam? name = (ctor.param? name).bind fun other =>
      if other.promoted then some other.name
      else (readFirst fieldAssignment (String.ofList ·.2 == name)
        (bodyCells source layout.bodyOpen layout.bodyClose)).map (String.ofList ·.2.value.1) := by
  simp only [Outline.fieldForParam?, hctor, Option.bind_eq_bind, Option.bind_some, h.body,
    findSome?_assignedField]

/-- **The statement that is read.** The property of a service is that of the promoted parameter
that receives it, or the one in the first statement for it. -/
theorem Outline.fieldForService?_eq_some_iff (h : Outline.ofDeclaration source n = some outline) :
    outline.fieldForService? serviceId = some field ↔ outline.Promotes serviceId field ∨
      ∃ cells start, outline.ReadAt source serviceId field cells start := by
  obtain ⟨hctors, hfactories⟩ := Outline.sourced h
  constructor
  · intro hfield
    simp only [Outline.fieldForService?, Option.bind_eq_bind, Option.bind_eq_some_iff] at hfield
    obtain ⟨factory, hfactory, hfield⟩ := hfield
    split at hfield
    · rename_i instanceVar assignments returnLine hshape
      obtain ⟨layout, hread⟩ := hfactories factory hfactory
      rw [(hread.assignments hshape).1, find?_assignmentsOn] at hfield
      obtain ⟨⟨cells, m⟩, hfirst, rfl⟩ := Option.map_eq_some_iff.mp hfield
      exact .inr ⟨cells, m.start, .filled hfactory hshape hfirst rfl String.toList_ofList.symm⟩
    · rename_i keyword arguments comma returnLine returnEndLine hshape
      simp only [Option.bind_eq_some_iff] at hfield
      obtain ⟨index, hindex, ctor, hctor, param, hparam, hfield⟩ := hfield
      obtain ⟨layout, hread⟩ := hctors ctor hctor
      have hpasses : outline.Passes serviceId index param :=
        ⟨factory, ctor, keyword, arguments, comma, returnLine, returnEndLine, hfactory, hctor, hshape,
          hindex, hparam⟩
      rw [hread.fieldForParam? hctor] at hfield
      obtain ⟨other, hother, hfield⟩ := Option.bind_eq_some_iff.mp hfield
      split at hfield
      · rename_i hpromoted
        exact .inl ⟨index, param, ctor, other, hpasses, hctor, hother, hpromoted,
          (Option.some.inj hfield).symm⟩
      · rename_i hplain
        obtain ⟨⟨cells, m⟩, hfirst, rfl⟩ := Option.map_eq_some_iff.mp hfield
        exact .inr ⟨cells, m.start, .assigned hpasses hctor hother (Bool.eq_false_iff.mpr hplain) hread
          hfirst rfl String.toList_ofList.symm⟩
    · cases hfield
  · rintro (⟨index, param, ctor, other, hpasses, hctor, hother, hpromoted, rfl⟩ | ⟨cells, start, hread⟩)
    · obtain ⟨layout, hread⟩ := hctors ctor hctor
      rw [hpasses.fieldForService?, hread.fieldForParam? hctor, hother, Option.bind_some,
        if_pos hpromoted]
    · cases hread with
      | filled hfactory hshape hfirst hstart hfield =>
        obtain ⟨layout, hread⟩ := hfactories _ hfactory
        simp only [Outline.fieldForService?, hfactory, hshape, Option.bind_eq_bind, Option.bind_some]
        rw [(hread.assignments hshape).1, find?_assignmentsOn, hfirst, Option.map_some, hfield,
          String.ofList_toList]
      | assigned hpasses hctor hother hplain hread hfirst hstart hfield =>
        rw [hpasses.fieldForService?, hread.fieldForParam? hctor, hother, Option.bind_some,
          if_neg (by rw [hplain]; decide), hfirst, Option.map_some, hfield, String.ofList_toList]

/-- A property that is read from a statement in code is stored in code. -/
theorem Outline.ReadAt.stores {cells : Line} {start : Nat}
    (hsourced : ∀ factory ∈ outline.factory, ∃ layout, factory.ReadFrom source layout)
    (h : outline.ReadAt source serviceId field cells start) (hcode : cells.isCodeAt start = true) :
    outline.Stores source serviceId field := by
  cases h with
  | @filled factory hfactory instanceVar assignments returnLine hshape m hfirst hstart hfield =>
    obtain ⟨layout, hread⟩ := hsourced _ hfactory
    obtain ⟨hcells, hm, hfetches⟩ := of_readFirst hfirst
    obtain ⟨n, hn, rfl⟩ := (hread.assignments hshape).2 cells hcells
    refine .filled hfactory hshape hn hm (hstart ▸ hcode) ?_
    simp only [InstanceAssignment.fetches, Bool.and_eq_true, beq_iff_eq] at hfetches
    rw [← hfield, ← hfetches.1.1, ← hfetches.1.2, ← hfetches.2]
    simp only [String.toList_ofList]
  | @assigned index param other hpasses ctor hctor hother hplain layout hread m hfirst hstart hfield =>
    obtain ⟨hcells, hm, hparam⟩ := of_readFirst hfirst
    refine .assigned hpasses hctor hread hcells hm (hstart ▸ hcode) ?_
    rw [← hfield, ← beq_iff_eq.mp hparam, String.toList_ofList]

theorem Outline.Promotes.stores (h : outline.Promotes serviceId field) :
    outline.Stores source serviceId field := by
  obtain ⟨index, param, ctor, other, hpasses, hctor, hother, hpromoted, rfl⟩ := h
  have hname : other.name = param.name := by simpa using find?_some hother
  exact .promoted hpasses hctor (mem_of_find?_eq_some hother) hname hpromoted hname

/-! ### Comments -/

/-- Whether a line holds code. -/
def Line.hasCode (cells : Line) : Bool := !isBlankLine cells.code

theorem readFirst_cons {α : Type} (recognize : List Char → Option (α × List Char))
    (wanted : α → Bool) (cells : Line) (lines : List Line) :
    readFirst recognize wanted (cells :: lines) =
      (((allMatches recognize cells.raw).find? (wanted ·.value)).map (cells, ·)).or
        (readFirst recognize wanted lines) := by
  rw [readFirst, findSome?_cons]
  cases (allMatches recognize cells.raw).find? (wanted ·.value) <;> rfl

/-- A line with a variable in code holds code. -/
theorem Line.hasCode_of_isCodeAt {cells : Line} {i : Nat} (h : cells.isCodeAt i = true)
    (hhead : (cells.raw.drop i).head? = some '$') : cells.hasCode = true := by
  rw [head?_drop, Line.raw, getElem?_map, Option.map_eq_some_iff] at hhead
  obtain ⟨cell, hcell, hchar⟩ := hhead
  rw [Line.isCodeAt, hcell] at h
  have hmem : '$' ∈ cells.code := by
    refine mem_map.mpr ⟨cell, mem_of_getElem? hcell, ?_⟩
    rw [Cell.code, if_pos h, hchar]
  rw [Line.hasCode, isBlankLine, Bool.not_eq_true', all_eq_false]
  exact ⟨'$', hmem, by decide⟩

/-- Lines without code do not matter to a search whose first match starts in code. -/
theorem readFirst_filter {α : Type} {recognize : List Char → Option (α × List Char)}
    {wanted : α → Bool} {lines : List Line}
    (hdollar : ∀ cs hit, recognize cs = some hit → cs.head? = some '$')
    (hcode : ∀ hit ∈ readFirst recognize wanted lines, hit.1.isCodeAt hit.2.start = true) :
    readFirst recognize wanted (lines.filter Line.hasCode) = readFirst recognize wanted lines := by
  induction lines with
  | nil => rfl
  | cons cells lines ih =>
    rw [readFirst_cons] at hcode
    cases hfound : (allMatches recognize cells.raw).find? (wanted ·.value) with
    | some m =>
      rw [hfound] at hcode
      obtain ⟨-, rest, hread, -⟩ := of_mem_allMatches (mem_of_find?_eq_some hfound)
      rw [filter_cons_of_pos (Line.hasCode_of_isCodeAt (hcode _ rfl) (hdollar _ _ hread)),
        readFirst_cons, readFirst_cons, hfound]
      rfl
    | none =>
      rw [hfound] at hcode
      rw [filter_cons, readFirst_cons, hfound]
      split
      · rw [readFirst_cons, hfound]
        exact ih hcode
      · exact ih hcode

theorem head?_of_fieldAssignment (cs : List Char) (hit : (List Char × List Char) × List Char)
    (h : fieldAssignment cs = some hit) : cs.head? = some '$' := by
  obtain ⟨_, hthis, -⟩ := Option.bind_eq_some_iff.mp h
  rw [literal_eq_some.mp hthis]
  rfl

theorem head?_of_instanceAssignment (cs : List Char) (hit : InstanceAssignment × List Char)
    (h : instanceAssignment cs = some hit) : cs.head? = some '$' := by
  obtain ⟨_, howner, -⟩ := Option.bind_eq_some_iff.mp h
  rw [(variableExpr_eq_some howner).1]
  rfl

/-- Whether two factories build their objects from the same code. -/
def Factory.SameCode (source source' : Source) (factory factory' : Factory) : Prop :=
  factory.containerVar = factory'.containerVar ∧
    match factory.shape, factory'.shape with
    | .instanceAssign instanceVar _ returnLine, .instanceAssign instanceVar' _ returnLine' =>
      instanceVar = instanceVar' ∧ (factory.searched source returnLine).filter Line.hasCode =
        (factory'.searched source' returnLine').filter Line.hasCode
    | .newStatic _ arguments _ _ _, .newStatic _ arguments' _ _ _ =>
      arguments.map containerGetId = arguments'.map containerGetId
    | .unrecognized, .unrecognized => True
    | _, _ => False

/-- Whether two constructors have the same parameters, and the same code in their bodies. -/
def Constructor.SameCode (source source' : Source) (ctor ctor' : Constructor) : Prop :=
  ctor.params.map (fun param => (param.name, param.promoted)) =
      ctor'.params.map (fun param => (param.name, param.promoted)) ∧
    ∃ layout layout', ctor.ReadFrom source layout ∧ ctor'.ReadFrom source' layout' ∧
      (bodyCells source layout.bodyOpen layout.bodyClose).filter Line.hasCode =
        (bodyCells source' layout'.bodyOpen layout'.bodyClose).filter Line.hasCode

/-- Whether the statement that the property of a service is read from starts in code. -/
def Outline.ReadsCode (source : Source) (outline : Outline) (serviceId : String) : Prop :=
  ∀ field cells start, outline.ReadAt source serviceId field cells start →
    cells.isCodeAt start = true

/-- The property of a parameter in two constructors with the same code. -/
theorem Constructor.SameCode.fieldForParam? {source' : Source} {outline' : Outline}
    {ctor ctor' : Constructor} (h : ctor.SameCode source source' ctor')
    (hctor : outline.constructor = some ctor) (hctor' : outline'.constructor = some ctor')
    {index index' : Nat} {param param' : Param} (hpasses : outline.Passes serviceId index param)
    (hpasses' : outline'.Passes serviceId index' param') (hname : param.name = param'.name)
    (hcode : outline.ReadsCode source serviceId) (hcode' : outline'.ReadsCode source' serviceId) :
    outline.fieldForParam? param.name = outline'.fieldForParam? param'.name := by
  obtain ⟨hparams, layout, layout', hread, hread', hbody⟩ := h
  rw [hread.fieldForParam? hctor, hread'.fieldForParam? hctor']
  have hfound : (ctor.param? param.name).map (fun param => (param.name, param.promoted)) =
      (ctor'.param? param'.name).map (fun param => (param.name, param.promoted)) := by
    have hfind := congrArg (find? (·.1 == param.name)) hparams
    rw [find?_map, find?_map] at hfind
    rw [← hname]
    exact hfind
  cases hother : ctor.param? param.name with
  | none =>
    rw [hother] at hfound
    rw [Option.map_eq_none_iff.mp hfound.symm]
    rfl
  | some other =>
    rw [hother] at hfound
    obtain ⟨other', hother', heq⟩ := Option.map_eq_some_iff.mp hfound.symm
    obtain ⟨hsame, hpromoted⟩ := Prod.mk.inj heq
    rw [hother', Option.bind_some, Option.bind_some, hpromoted, hsame]
    split
    · rfl
    · rename_i hplain
      have hplain := Bool.eq_false_iff.mpr hplain
      rw [← readFirst_filter head?_of_fieldAssignment, hbody, hname,
        readFirst_filter head?_of_fieldAssignment]
      · intro hit hhit
        exact hcode' _ _ _ (.assigned hpasses' hctor' hother' (hpromoted ▸ hplain) hread' hhit rfl
          String.toList_ofList.symm)
      · intro hit hhit
        exact hcode _ _ _ (.assigned hpasses hctor hother hplain hread hhit rfl
          String.toList_ofList.symm)

/-- Whether two classes have the same lists and the same lines of code in their wiring methods. -/
structure Outline.SameCode (source source' : Source) (outline outline' : Outline) : Prop where
  constructor : Option.Rel (Constructor.SameCode source source') outline.constructor
    outline'.constructor
  factory : Option.Rel (Factory.SameCode source source') outline.factory outline'.factory

/-- **Comments do not count.** Where the first statement for a service starts in code, lines
without code make no difference. -/
theorem Outline.fieldForService?_congr {source' : Source} {n' : Nat} {outline' : Outline}
    (h : Outline.ofDeclaration source n = some outline)
    (h' : Outline.ofDeclaration source' n' = some outline')
    (hsame : outline.SameCode source source' outline')
    (hcode : outline.ReadsCode source serviceId) (hcode' : outline'.ReadsCode source' serviceId) :
    outline.fieldForService? serviceId = outline'.fieldForService? serviceId := by
  obtain ⟨-, hfactories⟩ := Outline.sourced h
  obtain ⟨-, hfactories'⟩ := Outline.sourced h'
  obtain ⟨hctor, hfactory⟩ := hsame
  cases hfac : outline.factory <;> cases hfac' : outline'.factory <;> rw [hfac, hfac'] at hfactory <;>
    cases hfactory
  case none => rw [fieldForService?, hfac, fieldForService?, hfac']; rfl
  case some factory factory' hsame =>
    obtain ⟨hvar, hsame⟩ := hsame
    cases hshape : factory.shape <;> cases hshape' : factory'.shape <;> rw [hshape, hshape'] at hsame <;>
      first | exact hsame.elim | skip
    case newStatic.newStatic keyword arguments comma returnLine returnEndLine keyword' arguments'
        comma' returnLine' returnEndLine' =>
      have hindex : arguments.findIdx? (containerGetId · == some serviceId) =
          arguments'.findIdx? (containerGetId · == some serviceId) := by
        have hfind := congrArg (findIdx? (· == some serviceId)) hsame
        rwa [findIdx?_map, findIdx?_map] at hfind
      cases hctor₁ : outline.constructor <;> cases hctor₂ : outline'.constructor <;>
        rw [hctor₁, hctor₂] at hctor <;> cases hctor
      case none => simp [fieldForService?, hfac, hfac', hshape, hshape', hctor₁, hctor₂]
      case some ctor ctor' hctors =>
        cases hfound : arguments.findIdx? (containerGetId · == some serviceId) with
        | none =>
          rw [hfound] at hindex
          simp [fieldForService?, hfac, hfac', hshape, hshape', hfound, ← hindex]
        | some index =>
          rw [hfound] at hindex
          have hnames := congrArg (·[index]?) hctors.1
          simp only [getElem?_map] at hnames
          cases hparam : ctor.params[index]? with
          | none =>
            rw [hparam] at hnames
            simp [fieldForService?, hfac, hfac', hshape, hshape', hfound, ← hindex, hctor₁, hctor₂,
              hparam, Option.map_eq_none_iff.mp hnames.symm]
          | some param =>
            rw [hparam] at hnames
            obtain ⟨param', hparam', hsame⟩ := Option.map_eq_some_iff.mp hnames.symm
            have hpasses : outline.Passes serviceId index param := ⟨factory, ctor, _, _, _, _, _, hfac,
              hctor₁, hshape, hfound, hparam⟩
            have hpasses' : outline'.Passes serviceId index param' := ⟨factory', ctor', _, _, _, _, _,
              hfac', hctor₂, hshape', hindex.symm, hparam'⟩
            rw [hpasses.fieldForService?, hpasses'.fieldForService?]
            exact hctors.fieldForParam? hctor₁ hctor₂ hpasses hpasses' (Prod.mk.inj hsame).1.symm hcode
              hcode'
    case instanceAssign.instanceAssign instanceVar assignments returnLine instanceVar' assignments'
        returnLine' =>
      obtain ⟨rfl, hlines⟩ := hsame
      obtain ⟨layout, hread⟩ := hfactories factory hfac
      obtain ⟨layout', hread'⟩ := hfactories' factory' hfac'
      simp only [fieldForService?, hfac, hfac', hshape, hshape', Option.bind_eq_bind, Option.bind_some]
      rw [(hread.assignments hshape).1, (hread'.assignments hshape').1, find?_assignmentsOn,
        find?_assignmentsOn, ← readFirst_filter head?_of_instanceAssignment, hlines, hvar,
        readFirst_filter head?_of_instanceAssignment]
      · intro hit hhit
        exact hcode' _ _ _ (.filled hfac' hshape' hhit rfl String.toList_ofList.symm)
      · intro hit hhit
        exact hcode _ _ _ (.filled hfac hshape hhit rfl String.toList_ofList.symm)
    case unrecognized.unrecognized =>
      simp [fieldForService?, hfac, hfac', hshape, hshape']

end

/-- **Stored services.** The property of a service is that of the promoted parameter that receives
it, or the one in the first statement of the text for it: the first that fetches the service, or
that assigns the parameter which receives it, be it in a comment. What is read is stored by code
where that statement starts in code, whatever comments hold. Then comments do not count at all:
two classes with the same lists and the same lines of code in their wiring methods have the same
property for the service, whatever lines without code there are. -/
theorem fieldForService_stores (text : String) {n : Nat} {outline : Outline}
    (h : Outline.ofDeclaration (Source.ofText text) n = some outline) (serviceId : String) :
    (∀ field, outline.fieldForService? serviceId = some field ↔
      outline.Promotes serviceId field ∨
        ∃ cells start, outline.ReadAt (Source.ofText text) serviceId field cells start) ∧
    (∀ field, outline.Promotes serviceId field →
      outline.Stores (Source.ofText text) serviceId field) ∧
    (∀ field cells start, outline.ReadAt (Source.ofText text) serviceId field cells start →
      cells.isCodeAt start = true → outline.Stores (Source.ofText text) serviceId field) ∧
    ∀ text' n' outline', Outline.ofDeclaration (Source.ofText text') n' = some outline' →
      outline.SameCode (Source.ofText text) (Source.ofText text') outline' →
      outline.ReadsCode (Source.ofText text) serviceId →
      outline'.ReadsCode (Source.ofText text') serviceId →
      outline.fieldForService? serviceId = outline'.fieldForService? serviceId :=
  ⟨fun _ => Outline.fieldForService?_eq_some_iff h, fun _ => Outline.Promotes.stores,
    fun _ _ _ hread => hread.stores (Outline.sourced h).2,
    fun _ _ _ h' hsame => Outline.fieldForService?_congr h h' hsame⟩

/-- A class that stores a service, with a comment in the constructor. -/
def commentedBody : String := "<?php
class Page \x7b
  function __construct($m) \x7b
    // keeps $m
    $this->mailer = $m;
  \x7d
  static function create($c) \x7b
    return new static($c->get('mailer'));
  \x7d
\x7d
"

/-- The same class with other comments. -/
def recommentedBody : String := "<?php
class Page \x7b
  function __construct($m) \x7b
    # was stored in
    # $this->old
    $this->mailer = $m;
  \x7d
  static function create($c) \x7b
    return new static($c->get('mailer'));
  \x7d
\x7d
"

/-- The lines of a body that is not on one line are told by the lines of its braces. -/
theorem Constructor.ReadFrom.bodyCells {ctor : Constructor} (h : ctor.ReadFrom source layout)
    (hlines : ctor.openBraceLine ≠ ctor.endLine) :
    bodyCells source layout.bodyOpen layout.bodyClose =
      (Source.span (ctor.openBraceLine + 1) (ctor.endLine - 1)).map source.line := by
  obtain ⟨-, hopen, hend, -⟩ := h.lines
  rw [hopen, hend] at hlines ⊢
  rw [ServiceInjection.bodyCells, if_neg (by simpa using hlines)]

/-- A body on lines of its own is read from code if its statements start there. -/
theorem Outline.readsCode_of_lines {outline : Outline} {factory : Factory} {ctor : Constructor}
    (hfactory : outline.factory = some factory) {keyword : String} {arguments : List String}
    {comma : Bool} {returnLine returnEndLine : Nat}
    (hshape : factory.shape = .newStatic keyword arguments comma returnLine returnEndLine)
    (hctor : outline.constructor = some ctor) (hlines : ctor.openBraceLine ≠ ctor.endLine)
    (hcode : ∀ n ∈ Source.span (ctor.openBraceLine + 1) (ctor.endLine - 1),
      ∀ m ∈ allMatches fieldAssignment (source.line n).raw, (source.line n).isCodeAt m.start = true)
    (serviceId : String) : outline.ReadsCode source serviceId := by
  intro field cells start hread
  cases hread with
  | filled hother hother' =>
    cases hfactory.symm.trans hother
    rw [hshape] at hother'
    cases hother'
  | assigned _ hother _ _ hlayout hfirst hstart =>
    cases hctor.symm.trans hother
    obtain ⟨hcells, hm, -⟩ := of_readFirst hfirst
    rw [hlayout.bodyCells hlines] at hcells
    obtain ⟨n, hn, rfl⟩ := mem_map.mp hcells
    exact hstart ▸ hcode n hn _ hm

theorem stores_commentedBody :
    ∃ outline outline', Outline.ofDeclaration (Source.ofText commentedBody) 1 = some outline ∧
      outline.Stores (Source.ofText commentedBody) "mailer" "mailer" ∧
      Outline.ofDeclaration (Source.ofText recommentedBody) 1 = some outline' ∧
      outline'.fieldForService? "mailer" = some "mailer" := by
  have hread : ∀ text ∈ [commentedBody, recommentedBody],
      ∃ outline ∈ Outline.ofDeclaration (Source.ofText text) 1,
      (∃ factory ∈ outline.factory, factory.containerVar = "c" ∧ ∃ line ∈ [7, 8],
        factory.shape = .newStatic "static" ["$c->get('mailer')"] false line line) ∧
      outline.fieldForService? "mailer" = some "mailer" ∧
      ∃ ctor ∈ outline.constructor, ctor.openBraceLine ≠ ctor.endLine ∧
        ctor.params = [⟨"m", none, false, "$m"⟩] ∧
        (∀ n ∈ Source.span (ctor.openBraceLine + 1) (ctor.endLine - 1),
          ∀ m ∈ allMatches fieldAssignment ((Source.ofText text).line n).raw,
            ((Source.ofText text).line n).isCodeAt m.start = true) ∧
        ((Source.span (ctor.openBraceLine + 1) (ctor.endLine - 1)).map
          (Source.ofText text).line).filter Line.hasCode =
            ["    $this->mailer = $m;".toList.map .show] := by
    decide +kernel
  obtain ⟨outline, houtline, ⟨factory, hfactory, hvar, line, -, hshape⟩, hfield, ctor, hctor, hlines,
    hparams, hcode, hbody⟩ := hread _ mem_cons_self
  obtain ⟨outline', houtline', ⟨factory', hfactory', hvar', line', -, hshape'⟩, -, ctor', hctor',
    hlines', hparams', hcode', hbody'⟩ := hread _ (mem_cons_of_mem _ mem_cons_self)
  obtain ⟨hreads, hpromotes, hstores, hsame⟩ := fieldForService_stores commentedBody houtline "mailer"
  have hfirst := Outline.readsCode_of_lines hfactory hshape hctor hlines hcode "mailer"
  refine ⟨outline, outline', houtline, ?_, houtline', hfield ▸ (hsame _ _ outline' houtline' ⟨?_, ?_⟩
    hfirst (Outline.readsCode_of_lines hfactory' hshape' hctor' hlines' hcode' _)).symm⟩
  · rcases (hreads _).mp hfield with h | ⟨cells, start, h⟩
    · exact hpromotes _ h
    · exact hstores _ cells start h (hfirst _ _ _ h)
  · obtain ⟨layout, hlayout⟩ := (Outline.sourced houtline).1 ctor hctor
    obtain ⟨layout', hlayout'⟩ := (Outline.sourced houtline').1 ctor' hctor'
    rw [hctor, hctor']
    refine .some ⟨by rw [hparams, hparams'], layout, layout', hlayout, hlayout', ?_⟩
    rw [hlayout.bodyCells hlines, hlayout'.bodyCells hlines', hbody, hbody']
  · rw [hfactory, hfactory']
    refine .some ⟨hvar.trans hvar'.symm, ?_⟩
    rw [hshape, hshape']

/-- A class with a disused statement in a comment. -/
def disusedStatement : String := "<?php
class Page \x7b
  function __construct($m) \x7b
    // $this->old = $m;
    $this->mailer = $m;
  \x7d
  static function create($c) \x7b
    return new static($c->get('mailer'));
  \x7d
\x7d
"

/-- The disused statement is taken for the one that stores the service. -/
theorem misread_disusedStatement :
    ∃ outline, Outline.ofDeclaration (Source.ofText disusedStatement) 1 = some outline ∧
      outline.fieldForService? "mailer" = some "old" ∧
      ¬ outline.Stores (Source.ofText disusedStatement) "mailer" "old" := by
  have hread : ∃ outline ∈ Outline.ofDeclaration (Source.ofText disusedStatement) 1,
      outline.fieldForService? "mailer" = some "old" ∧
      (∃ factory ∈ outline.factory,
        factory.shape = .newStatic "static" ["$c->get('mailer')"] false 7 7) ∧
      ∃ ctor ∈ outline.constructor, ctor.openBraceLine ≠ ctor.endLine ∧
        (∀ param ∈ ctor.params, param.promoted = false) ∧
        ∀ n ∈ Source.span (ctor.openBraceLine + 1) (ctor.endLine - 1),
          ∀ m ∈ allMatches fieldAssignment ((Source.ofText disusedStatement).line n).raw,
            ((Source.ofText disusedStatement).line n).isCodeAt m.start = true →
              m.value.1 ≠ "old".toList := by
    decide +kernel
  obtain ⟨outline, houtline, hfield, ⟨factory, hfactory, hshape⟩, ctor, hctor, hlines, hplain,
    hcode⟩ := hread
  refine ⟨outline, houtline, hfield, fun hstores => ?_⟩
  cases hstores with
  | filled hother hother' =>
    cases hfactory.symm.trans hother
    rw [hshape] at hother'
    cases hother'
  | promoted _ hother hparam _ hpromoted =>
    cases hctor.symm.trans hother
    rw [hplain _ hparam] at hpromoted
    cases hpromoted
  | assigned _ hother hlayout hcells hm hstart hvalue =>
    cases hctor.symm.trans hother
    rw [hlayout.bodyCells hlines] at hcells
    obtain ⟨n, hn, rfl⟩ := mem_map.mp hcells
    exact hcode n hn _ hm hstart (congrArg Prod.fst hvalue)

end ServiceInjection
