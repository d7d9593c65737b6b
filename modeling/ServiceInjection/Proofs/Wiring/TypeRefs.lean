import ServiceInjection.Proofs.Outline.Variables
import ServiceInjection.Proofs.Text.Names
import ServiceInjection.Wiring.Edits

/-!
# Wiring.TypeRefs

What a type means as it is written. There are three ways to write one (`Refers`): by the local
name of an import, in full, or by a short name that a new import will bind. The reservations made
so far keep the short names apart (`Reserves`): each is free in the file, and two classes that
share one are the same. So every type keeps its meaning whatever is imported later
(`Refers.means`).
-/

namespace ServiceInjection

open Text List

variable {name : String} {entry : Import} {outline : Outline} {reserved : Reservations}
  {ref : TypeRef} {binding : Binding}

/-! ### Local names -/

/-- Whether the name behind `as` of an import, if it has one, is a name. -/
def Import.Plain (entry : Import) : Prop := ∀ newName ∈ entry.newName, IsName newName.toList

theorem Import.Plain.not_mem (h : entry.Plain) : '\\' ∉ entry.localName.toList := by
  rw [Import.localName]
  split
  · rename_i newName hnew
    exact fun hmem => absurd ((h newName hnew).2 _ hmem) (by decide)
  · exact not_mem_shortName _

theorem ImportClause.plain_of? {cs : List Char} {clause : ImportClause}
    (h : ImportClause.of? cs = some clause) : ∀ newName ∈ clause.newName, IsName newName := by
  simp only [ImportClause.of?, Option.bind_eq_bind, Option.bind_eq_some_iff] at h
  obtain ⟨⟨name, rest⟩, -, h⟩ := h
  split at h
  · cases h
    nofun
  · simp only [Option.bind_eq_some_iff] at h
    obtain ⟨_, -, _, -, _, -, ⟨word, _⟩, hword, h⟩ := h
    split at h
    · cases h
      rintro newName ⟨⟩
      exact (word_eq_some hword).2
    · cases h

theorem plain_of_mem_clauses {cs : List Char} {clause : ImportClause} (h : clause ∈ clauses cs)
    (name : List Char) (line : Nat) :
    Import.Plain ⟨String.ofList name, clause.newName.map String.ofList, line⟩ := by
  obtain ⟨_, -, hclause⟩ := mem_filterMap.mp h
  intro newName hnew
  obtain ⟨word, hword, rfl⟩ := Option.map_eq_some_iff.mp hnew
  rw [String.toList_ofList]
  exact ImportClause.plain_of? hclause word hword

theorem plain_of_mem_importsOf {statement : List Char} {line : Nat}
    (h : entry ∈ importsOf statement line) : entry.Plain := by
  unfold importsOf at h
  split at h
  · cases h
  · dsimp only at h
    split at h
    · cases h
    · split at h <;>
      · obtain ⟨clause, hclause, rfl⟩ := mem_map.mp h
        exact plain_of_mem_clauses hclause _ line

namespace ImportScan

theorem of_mem_add {imports new : List Import} (h : entry ∈ add imports new) :
    entry ∈ imports ∨ entry ∈ new := by
  unfold add at h
  induction new generalizing imports with
  | nil => exact .inl h
  | cons first new ih =>
    rw [foldl_cons] at h
    rcases ih h with h | h
    · split at h
      · exact .inl h
      · rcases mem_append.mp h with h | h
        · exact .inl h
        · exact .inr (mem_singleton.mp h ▸ .head _)
    · exact .inr (.tail _ h)

theorem plain_step {source : Source} {scan : ImportScan} {n : Nat}
    (h : ∀ entry ∈ scan.imports, entry.Plain) :
    ∀ entry ∈ (step source scan n).imports, entry.Plain := by
  have hnoted : (scan.noteNamespace (source.code n) n).imports = scan.imports := by
    unfold noteNamespace
    split <;> rfl
  unfold step
  split
  · exact h
  · dsimp only
    split
    · exact h
    · split
      · intro entry hentry
        rcases of_mem_add hentry with hentry | hentry
        · exact h entry (hnoted ▸ hentry)
        · exact plain_of_mem_importsOf hentry
      · exact fun entry hentry => h entry (hnoted ▸ hentry)

theorem plain_run (source : Source) : ∀ entry ∈ (run source).imports, entry.Plain := by
  have hfold : ∀ (numbers : List Nat) (scan : ImportScan), (∀ entry ∈ scan.imports, entry.Plain) →
      ∀ entry ∈ (numbers.foldl (step source) scan).imports, entry.Plain := by
    intro numbers
    induction numbers with
    | nil => exact fun _ h => h
    | cons n rest ih => exact fun scan h => ih _ (plain_step h)
  exact hfold _ _ nofun

end ImportScan

/-! ### Resolving a type -/

namespace Outline

/-- The outline of the file once further classes are imported under their short names. -/
def withImports (outline : Outline) (names : List String) : Outline :=
  { outline with
    imports := outline.imports ++ names.map fun name => ⟨name, none, outline.decl.line⟩ }

/-- Whether a type as it is written stands for a class, up to the case of ASCII letters, once
further classes are imported. -/
def Means (outline : Outline) (names : List String) (text name : String) : Prop :=
  sameName ((outline.withImports names).resolveTypeName text) name = true

theorem resolveTypeName_rooted (outline : Outline) (name : String) :
    outline.resolveTypeName ("\\" ++ name) = name := by
  have hcons : ("\\" ++ name).toList = '\\' :: name.toList := by
    rw [String.toList_append]
    rfl
  rw [resolveTypeName, hcons]
  exact String.ofList_toList

theorem resolveTypeName_plain (outline : Outline) {text : String} (h : '\\' ∉ text.toList) :
    outline.resolveTypeName text =
      match outline.importOfLocalName? text with
      | some entry => entry.name
      | none => text := by
  have htake : text.toList.takeWhile (· != '\\') = text.toList :=
    takeWhile_eq_self_iff.mpr fun c hc => by simpa using fun heq : c = '\\' => h (heq ▸ hc)
  have hdrop : text.toList.dropWhile (· != '\\') = [] :=
    dropWhile_eq_nil_iff.mpr fun c hc => by simpa using fun heq : c = '\\' => h (heq ▸ hc)
  unfold resolveTypeName
  split
  · rename_i rest hcons
    exact absurd (hcons ▸ mem_cons_self) h
  · rw [htake, hdrop, String.ofList_toList]
    cases outline.importOfLocalName? text with
    | none => rfl
    | some entry => exact String.append_empty

/-- A local name of the file keeps its meaning. -/
theorem means_localName (names : List String) (hplain : entry.Plain)
    (hdistinct : outline.imports.Pairwise fun a b => a.localName ≠ b.localName)
    (hmem : entry ∈ outline.imports) (hsame : sameName entry.name name = true) :
    outline.Means names entry.localName name := by
  have hfind : (outline.withImports names).importOfLocalName? entry.localName = some entry := by
    obtain ⟨front, behind, hsplit⟩ := append_of_mem hmem
    rw [hsplit, pairwise_append] at hdistinct
    have hfront : front.find? (·.localName == entry.localName) = none :=
      find?_eq_none.mpr fun other hother => by
        simpa using hdistinct.2.2 other hother entry (.head _)
    rw [importOfLocalName?, withImports, hsplit, append_assoc, find?_append, hfront,
      Option.none_or, cons_append, find?_cons_of_pos (by simp)]
  rw [Means, resolveTypeName_plain _ hplain.not_mem, hfind]
  exact hsame

/-- A short name that the file does not know gets the meaning of the new imports, if these agree
on it. -/
theorem means_shortName {names : List String}
    (hfree : outline.importOfLocalName? (shortName name) = none) (hmem : name ∈ names)
    (hagree : ∀ other ∈ names, shortName other = shortName name → sameName other name = true) :
    outline.Means names (shortName name) name := by
  obtain ⟨found, hfound⟩ : ∃ found, (names.map fun name =>
      (⟨name, none, outline.decl.line⟩ : Import)).find? (·.localName == shortName name) =
        some found := by
    refine Option.isSome_iff_exists.mp (find?_isSome.mpr ?_)
    exact ⟨_, mem_map_of_mem hmem, by simp [Import.localName]⟩
  have hfind : (outline.withImports names).importOfLocalName? (shortName name) = some found := by
    rw [importOfLocalName?, withImports, find?_append,
      show outline.imports.find? (·.localName == shortName name) = none from hfree, Option.none_or,
      hfound]
  obtain ⟨other, hother, rfl⟩ := mem_map.mp (mem_of_find?_eq_some hfound)
  have hshort : shortName other = shortName name := by
    simpa [Import.localName] using find?_some hfound
  rw [Means, resolveTypeName_plain _ (not_mem_shortName name), hfind]
  exact hagree other hother hshort

end Outline

/-! ### Reserving short names -/

/-- Whether short names are reserved for classes that can be imported: each is the short name of
its class, is free in the file, and stands for one class only. -/
structure Reserves (outline : Outline) (reserved : Reservations) : Prop where
  short : ∀ entry ∈ reserved, entry.1 = shortName entry.2
  free : ∀ entry ∈ reserved, outline.importOfLocalName? entry.1 = none
  new : ∀ entry ∈ reserved, outline.hasImport entry.2 = false
  agree : ∀ entry ∈ reserved, ∀ other ∈ reserved, entry.1 = other.1 →
    sameName entry.2 other.2 = true

theorem reserves_nil (outline : Outline) : Reserves outline [] := ⟨nofun, nofun, nofun, nofun⟩

/-- The ways to write a class as a type. -/
inductive Refers (outline : Outline) (reserved : Reservations) (name : String) : TypeRef → Prop
  | imported {entry : Import} : entry ∈ outline.imports → sameName entry.name name = true →
      Refers outline reserved name ⟨entry.localName, none⟩
  | inFull : Refers outline reserved name ⟨"\\" ++ name, none⟩
  | short : (shortName name, name) ∈ reserved → Refers outline reserved name ⟨shortName name, some name⟩

theorem Refers.mono {reserved' : Reservations} (h : Refers outline reserved name ref)
    (hsub : reserved ⊆ reserved') : Refers outline reserved' name ref := by
  cases h with
  | imported hmem hsame => exact .imported hmem hsame
  | inFull => exact .inFull
  | short hmem => exact .short (hsub hmem)

/-- A name to import is reserved. -/
theorem Refers.mem_reserved {new : String} (h : Refers outline reserved name ref)
    (hnew : ref.importName = some new) : (shortName new, new) ∈ reserved := by
  cases h with
  | imported hmem hsame => cases hnew
  | inFull => cases hnew
  | short hmem => exact Option.some.inj hnew ▸ hmem

/-- Writing a type keeps the reservations and says how the class is referred to. -/
theorem typeRef_refers (h : Reserves outline reserved) (hname : unrooted name = name) :
    Reserves outline (typeRef outline reserved name).2 ∧
      reserved ⊆ (typeRef outline reserved name).2 ∧
      Refers outline (typeRef outline reserved name).2 name (typeRef outline reserved name).1 := by
  unfold typeRef
  dsimp only
  split
  · rename_i entry hentry
    have hsame : sameName entry.name name = true := by simpa using find?_some hentry
    exact ⟨h, List.Subset.refl _, .imported (mem_of_find?_eq_some hentry) hsame⟩
  · rename_i hnone
    split
    · exact ⟨h, List.Subset.refl _, .inFull⟩
    · rename_i htaken
      simp only [nameTaken, Bool.or_eq_true, not_or, Bool.not_eq_true] at htaken
      obtain ⟨⟨hfree, -⟩, hlookup⟩ := htaken
      have hfree : outline.importOfLocalName? (shortName name) = none := by simpa using hfree
      have hnew : outline.hasImport name = false := by
        rw [Outline.hasImport, hname, any_eq_false]
        exact fun entry hentry => by simpa using find?_eq_none.mp hnone entry hentry
      -- Only the latest reservation of the short name is compared, but they all agree.
      have hagree : ∀ entry ∈ reserved, entry.1 = shortName name →
          sameName entry.2 name = true := by
        intro entry hentry hshort
        cases hlatest : reserved.lookup (shortName name) with
        | none => simpa [hshort] using lookup_eq_none_iff.mp hlatest entry hentry
        | some latest =>
          obtain ⟨front, behind, rfl, -⟩ := lookup_eq_some_iff.mp hlatest
          have hsame : sameName latest name = true := by simpa [hlatest] using hlookup
          exact sameName_trans (h.agree entry hentry (shortName name, latest) (by simp) hshort)
            hsame
      refine ⟨⟨?_, ?_, ?_, ?_⟩, subset_cons_self _ _, .short (.head _)⟩
      · exact forall_mem_cons.mpr ⟨rfl, h.short⟩
      · exact forall_mem_cons.mpr ⟨hfree, h.free⟩
      · exact forall_mem_cons.mpr ⟨hnew, h.new⟩
      · refine forall_mem_cons.mpr ⟨?_, fun entry hentry => ?_⟩
        · refine forall_mem_cons.mpr ⟨fun _ => sameName_refl name, fun other hother heq => ?_⟩
          rw [sameName_comm]
          exact hagree other hother heq.symm
        · exact forall_mem_cons.mpr ⟨hagree entry hentry, h.agree entry hentry⟩

/-- A class that is referred to is meant, with any classes of reserved names imported besides. -/
theorem Refers.means {names : List String} (h : Refers outline reserved name ref)
    (hreserves : Reserves outline reserved) (hplain : ∀ entry ∈ outline.imports, entry.Plain)
    (hdistinct : outline.imports.Pairwise fun a b => a.localName ≠ b.localName)
    (hnames : ∀ new ∈ names, (shortName new, new) ∈ reserved)
    (himport : ∀ new ∈ ref.importName, new ∈ names) : outline.Means names ref.text name := by
  cases h with
  | @imported entry hmem hsame =>
    exact Outline.means_localName names (hplain entry hmem) hdistinct hmem hsame
  | inFull =>
    rw [Outline.Means, Outline.resolveTypeName_rooted]
    exact sameName_refl name
  | short hmem =>
    refine Outline.means_shortName (hreserves.free _ hmem) (himport name rfl) ?_
    exact fun other hother hshort => hreserves.agree _ (hnames other hother) _ hmem hshort

/-- A class with a qualified name is written as a qualified name. -/
theorem typeRef_isQualified (hplain : ∀ entry ∈ outline.imports, entry.Plain)
    (hname : IsQualified name.toList) (hshort : IsQualified (shortName name).toList)
    (reserved : Reservations) : IsQualified (typeRef outline reserved name).1.text.toList := by
  have hsame : ∀ {a b : String}, sameName a b = true → IsQualified b.toList →
      IsQualified a.toList := by
    have hlower : ∀ name : String, IsQualified name.toList ↔
        IsQualified (name.toList.map Char.toLower) := fun name => by
      simp [IsQualified, @apply_toLower isNameChar (by decide)]
    intro a b h hb
    rw [hlower] at hb ⊢
    rwa [beq_iff_eq.mp h]
  unfold typeRef
  dsimp only
  split
  · rename_i entry hentry
    rw [Import.localName]
    split
    · rename_i newName hnew
      obtain ⟨hne, hword⟩ := hplain entry (mem_of_find?_eq_some hentry) newName hnew
      exact ⟨hne, fun c hc => isNameChar_of_isWord (hword c hc)⟩
    · exact hsame (sameName_shortName (by simpa using find?_some hentry)) hshort
  · split
    · rw [String.toList_append]
      exact ⟨by simp, forall_mem_append.mpr ⟨by decide, hname.2⟩⟩
    · exact hshort

/-! ### The types of new services -/

/-- Whether the directory names interfaces without a backslash in front. -/
def Directory.Unrooted (directory : Directory) : Prop :=
  ∀ row ∈ directory.rows, unrooted row.interface = row.interface

theorem Directory.of_mem_putRow {new row : ServiceRow} {rows : List ServiceRow}
    (h : row ∈ putRow new rows) : row = new ∨ row ∈ rows := by
  induction rows with
  | nil => exact .inl (mem_singleton.mp h)
  | cons other rest ih =>
    rw [putRow] at h
    split at h
    · rcases mem_cons.mp h with h | h
      · exact .inl h
      · exact .inr (.tail _ h)
    · rcases mem_cons.mp h with rfl | h
      · exact .inr (.head _)
      · exact (ih h).imp_right (.tail _)

theorem Directory.Unrooted.insertAll {directory : Directory} (h : directory.Unrooted)
    (entries : List ServiceEntry) : (directory.insertAll entries).Unrooted := by
  unfold Directory.insertAll
  induction entries generalizing directory with
  | nil => exact h
  | cons entry rest ih =>
    refine ih fun row hrow => ?_
    rcases Directory.of_mem_putRow hrow with rfl | hrow
    · exact unrooted_unrooted entry.interface
    · exact h row hrow

/-- Every directory that is made by inserting entries drops the backslashes in front. -/
theorem Directory.unrooted_ofEntries (entries : List ServiceEntry) :
    (Directory.ofEntries entries).Unrooted :=
  Directory.Unrooted.insertAll (fun _ hrow => absurd hrow not_mem_nil) entries

theorem Directory.mem_of_lookup? {directory : Directory} {serviceId : String} {row : ServiceRow}
    (h : directory.lookup? serviceId = some row) :
    row ∈ directory.rows ∧ row.serviceId = serviceId :=
  ⟨mem_of_find?_eq_some h, by simpa using find?_some h⟩

/-- Whether a binding has no type, or one that refers to the interface of its service. -/
inductive Binding.Typed (knowledge : Knowledge) (outline : Outline) (reserved : Reservations)
    (binding : Binding) : Prop
  | untyped : binding.typeHint = none → binding.importName = none →
      Typed knowledge outline reserved binding
  | typed {row : ServiceRow} {hint : String} :
      knowledge.directory.lookup? binding.serviceId = some row → binding.typeHint = some hint →
      Refers outline reserved row.interface ⟨hint, binding.importName⟩ →
      Typed knowledge outline reserved binding

section

variable {knowledge : Knowledge} {outline : Outline} {promotion : Promotion}
  {reserved reserved' : Reservations}

theorem Binding.Typed.mono (h : binding.Typed knowledge outline reserved)
    (hsub : reserved ⊆ reserved') : binding.Typed knowledge outline reserved' := by
  cases h with
  | untyped htype himport => exact .untyped htype himport
  | typed hrow htype hrefers => exact .typed hrow htype (hrefers.mono hsub)

theorem Binding.Typed.congr {other : Binding} (h : binding.Typed knowledge outline reserved)
    (hid : other.serviceId = binding.serviceId) (htype : other.typeHint = binding.typeHint)
    (himport : other.importName = binding.importName) : other.Typed knowledge outline reserved := by
  cases h with
  | untyped hnone hnone' => exact .untyped (htype.trans hnone) (himport.trans hnone')
  | typed hrow hsome hrefers =>
    exact .typed (hid ▸ hrow) (htype.trans hsome) (himport ▸ hrefers)

theorem bindService_typed (hdirectory : knowledge.directory.Unrooted)
    (h : Reserves outline reserved) (serviceId : String) :
    Reserves outline (bindService knowledge outline reserved serviceId).2 ∧
      reserved ⊆ (bindService knowledge outline reserved serviceId).2 ∧
      (bindService knowledge outline reserved serviceId).1.Typed knowledge outline
        (bindService knowledge outline reserved serviceId).2 := by
  unfold bindService
  split
  · rename_i row hrow
    obtain ⟨hmem, rfl⟩ := Directory.mem_of_lookup? hrow
    obtain ⟨hreserves, hsub, hrefers⟩ := typeRef_refers h (hdirectory row hmem)
    exact ⟨hreserves, hsub, .typed hrow rfl hrefers⟩
  · exact ⟨h, List.Subset.refl _, .untyped rfl rfl⟩

theorem distinctField_typed {bindings : List Binding} {chosen : Binding}
    (h : binding.Typed knowledge outline reserved)
    (hchosen : distinctField bindings binding = some chosen) :
    (promotion.adjust chosen).Typed knowledge outline reserved := by
  have hadjust : ∀ chosen : Binding, chosen.Typed knowledge outline reserved →
      (promotion.adjust chosen).Typed knowledge outline reserved := by
    intro chosen hchosen
    unfold Promotion.adjust
    split
    · exact hchosen.congr rfl rfl rfl
    · exact hchosen
  refine hadjust chosen ?_
  unfold distinctField at hchosen
  dsimp only at hchosen
  split at hchosen
  · exact Option.some.inj hchosen ▸ h
  · split at hchosen
    · cases hchosen
    · exact Option.some.inj hchosen ▸ h.congr rfl rfl rfl

/-- The types of all bindings refer to the interfaces of their services, whatever names are
reserved for services that are left out. -/
theorem bindAll_typed (hdirectory : knowledge.directory.Unrooted) {bindings : List Binding}
    {ids : List String} (hreserves : Reserves outline reserved)
    (hbindings : ∀ binding ∈ bindings, binding.Typed knowledge outline reserved) :
    Reserves outline (bindAll knowledge outline promotion reserved bindings ids).2 ∧
      ∀ binding ∈ (bindAll knowledge outline promotion reserved bindings ids).1,
        binding.Typed knowledge outline
          (bindAll knowledge outline promotion reserved bindings ids).2 := by
  induction ids generalizing reserved bindings with
  | nil => exact ⟨hreserves, hbindings⟩
  | cons id ids ih =>
    obtain ⟨hreserves', hsub, htyped⟩ := bindService_typed hdirectory hreserves id
    have hold : ∀ binding ∈ bindings, binding.Typed knowledge outline
        (bindService knowledge outline reserved id).2 :=
      fun binding hbinding => (hbindings binding hbinding).mono hsub
    rw [bindAll]
    dsimp only
    split
    · rename_i chosen hchosen
      refine ih hreserves' fun binding hbinding => ?_
      rcases mem_append.mp hbinding with hbinding | hbinding
      · exact hold binding hbinding
      · rw [mem_singleton.mp hbinding]
        exact distinctField_typed htyped hchosen
    · exact ih hreserves' hold

end

end ServiceInjection
