import ServiceInjection.Proofs.Outline.StoredFields
import ServiceInjection.Proofs.Outline.Variables
import ServiceInjection.Wiring.Existing

/-!
# Outline.MemberNames

Names in an outline are words: the parameters and the properties of a class, and what its
wiring statements assign. So what a class already receives goes by names that can be written
into a line of code (`ExistingWiring.isName_of`).
-/

namespace ServiceInjection

open Text List

variable {cs : List Char} {decl : VariableDecl} {param : Param} {field serviceId : String}

/-! ### Declarations -/

theorem typedName_isName {marks : Bool} {modifiers rest : List Char}
    (h : typedName marks modifiers cs = some (decl, rest)) : IsName decl.name := by
  simp only [typedName, Option.bind_eq_bind, Option.or_eq_some_iff, Option.bind_eq_some_iff] at h
  obtain ⟨_, -, _, -, ⟨_, _⟩, hword, heq⟩ | ⟨-, _, -, ⟨_, _⟩, hword, heq⟩ := h
  all_goals
    cases heq
    exact (word_eq_some hword).2

theorem declarationAfter_isName {words : List String} {marks : Bool} {front rest : List Char}
    (h : declarationAfter words marks front cs = some (decl, rest)) : IsName decl.name := by
  fun_induction declarationAfter words marks front cs with
  | case1 front cs _ => exact typedName_isName h
  | case2 front cs behind _ _ front' ih =>
    rcases Option.or_eq_some_iff.mp h with h | ⟨-, h⟩
    · exact ih h
    · exact typedName_isName h
  | case3 front cs behind _ _ => exact typedName_isName h

theorem Param.isName_of? {text masked : List Char} (h : Param.of? text masked = some param) :
    IsName param.name.toList := by
  simp only [Param.of?, paramDecl, Option.bind_eq_bind, Option.bind_eq_some_iff,
    Option.map_eq_some_iff] at h
  obtain ⟨_, ⟨⟨decl, rest⟩, hdecl, rfl⟩, heq⟩ := h
  rw [← Option.some.inj heq, String.toList_ofList]
  exact declarationAfter_isName hdecl

theorem propertyDecl_isName {code : List Char} (h : propertyDecl code = some decl) :
    IsName decl.name := by
  simp only [propertyDecl, Option.bind_eq_bind, Option.bind_eq_some_iff,
    Option.map_eq_some_iff] at h
  obtain ⟨_, -, ⟨decl, rest⟩, hdecl, rfl⟩ := h
  exact declarationAfter_isName hdecl

theorem Constructor.isName_ofLayout (source : Source) (layout : MethodLayout)
    (doc : Option LineSpan) (h : param ∈ (Constructor.ofLayout source layout doc).params) :
    IsName param.name.toList := by
  obtain ⟨entry, -, hparam⟩ := mem_filterMap.mp h
  exact Param.isName_of? hparam

theorem Constructor.ReadFrom.isName {source : Source} {layout : MethodLayout} {ctor : Constructor}
    (h : ctor.ReadFrom source layout) (hparam : param ∈ ctor.params) :
    IsName param.name.toList := by
  rw [h.eq] at hparam
  exact Constructor.isName_ofLayout source layout ctor.doc hparam

/-! ### The walk -/

/-- Whether all properties of a class have names. -/
def Members.Named (members : Members) : Prop :=
  ∀ field ∈ members.fields, IsName field.name.toList

section

variable {source : Source} {n : Nat} {outline : Outline}

theorem Outline.named (h : Outline.ofDeclaration source n = some outline) :
    outline.toMembers.Named := by
  obtain ⟨entries, hlists⟩ := exists_lists h
  intro field hfield
  rw [hlists.spec.2.2.1] at hfield
  obtain ⟨_ | method | _, hentry, hfield⟩ := mem_flatMap.mp hfield
  · cases hfield
  · obtain ⟨ctor, hctor, hfield⟩ := mem_flatMap.mp hfield
    obtain ⟨param, hparam, rfl⟩ := mem_map.mp hfield
    rw [Option.mem_toList, Method.constructor?, Option.ite_none_right_eq_some] at hctor
    obtain ⟨layout, -, rfl⟩ := Option.map_eq_some_iff.mp hctor.2
    exact Constructor.isName_ofLayout source layout _ (mem_filter.mp hparam).1
  · obtain ⟨decl, hdecl, -, heq⟩ := (hlists.stands _ hentry).read.of_field
    rw [mem_singleton.mp hfield, heq, String.toList_ofList]
    exact propertyDecl_isName hdecl

/-! ### Statements -/

theorem isName_fieldAssignment {m : Match (List Char × List Char)}
    (h : m ∈ allMatches fieldAssignment cs) : IsName m.value.1 := by
  obtain ⟨-, rest, hread, -⟩ := of_mem_allMatches h
  simp only [fieldAssignment, Option.bind_eq_bind, Option.bind_eq_some_iff] at hread
  obtain ⟨_, -, _, -, ⟨field, _⟩, hword, _, -, ⟨param, _⟩, -, _, -, heq⟩ := hread
  rw [← (Prod.mk.inj (Option.some.inj heq)).1]
  exact (word_eq_some hword).2

theorem isName_instanceAssignment {m : Match InstanceAssignment}
    (h : m ∈ allMatches instanceAssignment cs) : IsName m.value.field := by
  obtain ⟨-, rest, hread, -⟩ := of_mem_allMatches h
  simp only [instanceAssignment, Option.bind_eq_bind, Option.bind_eq_some_iff] at hread
  obtain ⟨⟨owner, _⟩, -, _, -, ⟨field, _⟩, hword, _, -, ⟨fetch, _⟩, -, heq⟩ := hread
  rw [← (Prod.mk.inj (Option.some.inj heq)).1]
  exact (word_eq_some hword).2

theorem Outline.isName_param (h : Outline.ofDeclaration source n = some outline)
    {ctor : Constructor} (hctor : outline.constructor = some ctor) (hparam : param ∈ ctor.params) :
    IsName param.name.toList := by
  obtain ⟨layout, hread⟩ := (Outline.sourced h).1 ctor hctor
  exact hread.isName hparam

theorem Outline.isName_fieldForParam? (h : Outline.ofDeclaration source n = some outline)
    {name : String} (hfield : outline.fieldForParam? name = some field) : IsName field.toList := by
  obtain ⟨ctor, hctor, -⟩ : ∃ ctor, outline.constructor = some ctor ∧ _ :=
    Option.bind_eq_some_iff.mp hfield
  obtain ⟨layout, hread⟩ := (Outline.sourced h).1 ctor hctor
  rw [hread.fieldForParam? hctor] at hfield
  obtain ⟨other, hother, hfield⟩ := Option.bind_eq_some_iff.mp hfield
  split at hfield
  · exact Option.some.inj hfield ▸ hread.isName (mem_of_find?_eq_some hother)
  · obtain ⟨⟨cells, m⟩, hfirst, rfl⟩ := Option.map_eq_some_iff.mp hfield
    rw [String.toList_ofList]
    exact isName_fieldAssignment (of_readFirst hfirst).2.1

theorem Outline.isName_fieldForService? (h : Outline.ofDeclaration source n = some outline)
    (hfield : outline.fieldForService? serviceId = some field) : IsName field.toList := by
  rcases (fieldForService?_eq_some_iff h).mp hfield with
    ⟨_, _, ctor, other, -, hctor, hother, -, rfl⟩ | ⟨cells, start, hread⟩
  · exact isName_param h hctor (mem_of_find?_eq_some hother)
  · cases hread with
    | filled _ _ hfirst _ hfield =>
      exact hfield ▸ isName_instanceAssignment (of_readFirst hfirst).2.1
    | assigned _ _ _ _ _ hfirst _ hfield =>
      exact hfield ▸ isName_fieldAssignment (of_readFirst hfirst).2.1

/-! ### Existing wiring -/

namespace ExistingWiring

theorem isName_knownField {directory : Directory}
    (h : Outline.ofDeclaration source n = some outline)
    (hfield : knownField directory outline serviceId = some field) : IsName field.toList := by
  rw [knownField] at hfield
  split at hfield
  · rename_i hstored
    exact Option.some.inj hfield ▸ outline.isName_fieldForService? h hstored
  · split at hfield
    · split at hfield
      · rename_i row _ hdeclared
        obtain ⟨found, hfound⟩ := Option.isSome_iff_exists.mp hdeclared
        have hname : found.name = row.field := by simpa using find?_some hfound
        rw [← Option.some.inj hfield, ← hname]
        exact outline.named h found (mem_of_find?_eq_some hfound)
      · cases hfield
    · cases hfield

theorem isName_paramsOfArguments {arguments : List String} {params : List Param}
    (h : ∀ param ∈ params, IsName param.name.toList) :
    ∀ entry ∈ paramsOfArguments arguments params, IsName entry.2.toList := by
  intro entry hentry
  obtain ⟨⟨argument, param⟩, hpair, hsome⟩ := mem_filterMap.mp hentry
  obtain ⟨id, -, rfl⟩ := Option.map_eq_some_iff.mp hsome
  exact h param (of_mem_zip hpair).2

/-- The names that a class already gives its services are words. -/
theorem isName_of {directory : Directory} {subject : Subject}
    (h : Outline.ofDeclaration source n = some subject.outline) :
    (∀ entry ∈ (of directory subject).fields, IsName entry.2.toList) ∧
      ∀ entry ∈ (of directory subject).params, IsName entry.2.toList := by
  rw [of]
  split
  · rename_i factory hfactory
    constructor
    · intro entry hentry
      obtain ⟨id, -, hsome⟩ := mem_filterMap.mp hentry
      obtain ⟨field, hfield, rfl⟩ := Option.map_eq_some_iff.mp hsome
      exact isName_knownField h hfield
    · rw [ofFactory]
      split
      · refine isName_paramsOfArguments ?_
        cases hctor : subject.outline.constructor with
        | none => exact nofun
        | some ctor => exact fun param hparam => Outline.isName_param h hctor hparam
      · exact nofun
  · rename_i ctor _ hctor
    constructor
    · intro entry hentry
      obtain ⟨⟨id, param⟩, -, hsome⟩ := mem_filterMap.mp hentry
      obtain ⟨field, hfield, rfl⟩ := Option.map_eq_some_iff.mp hsome
      exact Outline.isName_fieldForParam? h hfield
    · intro entry hentry
      obtain ⟨⟨id, param⟩, hknown, rfl⟩ := mem_map.mp hentry
      obtain ⟨⟨service, other⟩, hservice, hsome⟩ := mem_filterMap.mp hknown
      obtain ⟨_, -, heq⟩ := Option.map_eq_some_iff.mp hsome
      obtain ⟨rest, hrest, hpair⟩ := mem_map.mp hservice
      obtain ⟨-, rfl⟩ := Prod.mk.inj heq
      obtain ⟨-, rfl⟩ := Prod.mk.inj hpair
      exact Outline.isName_param h hctor (mem_of_mem_drop hrest)
  · exact ⟨nofun, nofun⟩

/-- An entry that is looked up stands in the list. -/
theorem mem_of_entryFor {entries : List (String × String)} {name : String}
    (h : entryFor entries serviceId = some name) : (serviceId, name) ∈ entries := by
  obtain ⟨front, back, hsplit, -⟩ := lookup_eq_some_iff.mp h
  exact mem_reverse.mp (hsplit ▸ mem_append_right _ mem_cons_self)

end ExistingWiring

end

end ServiceInjection
