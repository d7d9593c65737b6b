import Mathlib.Data.List.DropRight
import Mathlib.Data.List.Find
import Mathlib.Data.List.Induction
import Mathlib.Data.List.Nodup
import ServiceInjection.Proofs.Service.Indexed
import ServiceInjection.Settings.Basic
import ServiceInjection.Workspace.Scan

/-!
# Service.InsertionOrder

Tables with one entry for a key. Putting an entry into a table replaces the one with its key
where it stands, or adds the entry at the end. So a table filled entry by entry has its keys in
the order in which they came first (`map_tableOf`) and for each key the entry that came last
(`find?_tableOf`). Directories are such tables, and as the services of settings are put in by
their ids, the order in which they are given does not matter
(`Directory.insertAll_isMapOf`). The services of a workspace are put in file by file, and
where no two files declare the same id, each file decides alone about its ids
(`ServiceIndex.scan_anyOrder`).
-/

namespace ServiceInjection

open List

/-! ### Tables -/

section

variable {α : Type} (key : α → String)

/-- Replaces the first entry with the key of `x`, or adds `x` at the end. -/
def putBy (x : α) : List α → List α
  | [] => [x]
  | y :: ys => if key y == key x then x :: ys else y :: putBy x ys

/-- The table that is filled with entries one after the other. -/
def tableOf (xs : List α) : List α := xs.foldl (fun ys x => putBy key x ys) []

variable {key}

theorem tableOf_concat (xs : List α) (x : α) :
    tableOf key (xs ++ [x]) = putBy key x (tableOf key xs) := by
  rw [tableOf, foldl_append]
  rfl

theorem map_putBy (x : α) (ys : List α) : (putBy key x ys).map key =
    if key x ∈ ys.map key then ys.map key else ys.map key ++ [key x] := by
  induction ys with
  | nil => simp [putBy]
  | cons y ys ih =>
    by_cases hkey : key y = key x
    · simp [putBy, hkey]
    · rw [putBy, if_neg (by simpa using hkey), map_cons, ih, map_cons]
      by_cases hmem : key x ∈ ys.map key
      · rw [if_pos hmem, if_pos (mem_cons_of_mem _ hmem)]
      · rw [if_neg hmem, if_neg (not_mem_cons_of_ne_of_not_mem (Ne.symm hkey) hmem)]
        rfl

theorem find?_putBy (x : α) (ys : List α) (k : String) : (putBy key x ys).find? (key · == k) =
    if key x == k then some x else ys.find? (key · == k) := by
  induction ys with
  | nil => cases hk : key x == k <;> simp [putBy, hk]
  | cons y ys ih =>
    by_cases hkey : key y = key x
    · cases hk : key x == k <;> simp [putBy, hkey, hk]
    · rw [putBy, if_neg (by simpa using hkey), find?_cons, ih, find?_cons]
      cases hk : key y == k with
      | false => rfl
      | true => exact (if_neg fun hx => hkey ((beq_iff_eq.mp hk).trans (beq_iff_eq.mp hx).symm)).symm

/-- Putting entries in moves no key. -/
theorem map_prefix_foldl_putBy (xs ys : List α) :
    ys.map key <+: (xs.foldl (fun ys x => putBy key x ys) ys).map key := by
  induction xs generalizing ys with
  | nil => exact prefix_rfl
  | cons x xs ih =>
    refine List.IsPrefix.trans ?_ (ih (putBy key x ys))
    rw [map_putBy]
    split
    · exact prefix_rfl
    · exact prefix_append _ _

/-- The keys of a table stand in the order in which they came first. -/
theorem map_tableOf (xs : List α) : (tableOf key xs).map key = (xs.map key).eraseDups := by
  induction xs using reverseRecOn with
  | nil => rfl
  | append_singleton xs x ih =>
    rw [tableOf_concat, map_putBy, ih, map_append, eraseDups_append, map_singleton]
    by_cases hmem : key x ∈ xs.map key
    · have hold : [key x].removeAll (xs.map key) = [] := by
        rw [removeAll, filter_singleton, elem_eq_true_of_mem hmem]
        rfl
      rw [if_pos (mem_eraseDups.mpr hmem), hold, eraseDups_nil, append_nil]
    · have hnew : [key x].removeAll (xs.map key) = [key x] := by
        rw [removeAll, filter_singleton, elem_eq_mem, decide_eq_false hmem]
        rfl
      rw [if_neg (mt mem_eraseDups.mp hmem), hnew]
      rfl

theorem nodup_map_tableOf (xs : List α) : ((tableOf key xs).map key).Nodup := by
  induction xs using reverseRecOn with
  | nil => exact nodup_nil
  | append_singleton xs x ih =>
    rw [tableOf_concat, map_putBy]
    split
    · exact ih
    · rename_i hnew
      exact nodup_append'.mpr ⟨ih, nodup_singleton _, disjoint_singleton.mpr hnew⟩

/-- A table has the entry for a key that came last. -/
theorem find?_tableOf (xs : List α) (k : String) :
    (tableOf key xs).find? (key · == k) = xs.reverse.find? (key · == k) := by
  induction xs using reverseRecOn with
  | nil => rfl
  | append_singleton xs x ih =>
    rw [tableOf_concat, find?_putBy, ih, reverse_concat, find?_cons]
    cases key x == k <;> rfl

theorem tableOf_subset (xs : List α) : tableOf key xs ⊆ xs := by
  have hput : ∀ (x : α) ys, putBy key x ys ⊆ ys ++ [x] := by
    intro x ys
    induction ys with
    | nil => exact List.Subset.refl _
    | cons y ys ih => grind [putBy]
  induction xs using reverseRecOn with
  | nil => exact nil_subset _
  | append_singleton xs x ih =>
    rw [tableOf_concat]
    exact List.Subset.trans (hput x _) (append_subset.mpr
      ⟨subset_append_of_subset_left _ ih, subset_append_right _ _⟩)

end

/-! ### Directories -/

namespace Directory

theorem putRow_eq_putBy (row : ServiceRow) (rows : List ServiceRow) :
    putRow row rows = putBy ServiceRow.serviceId row rows := by
  induction rows with
  | nil => rfl
  | cons other rows ih => rw [putRow, putBy, ih]

theorem rows_insertAll (directory : Directory) (entries : List ServiceEntry) :
    (directory.insertAll entries).rows = (entries.map ServiceRow.ofEntry).foldl
      (fun rows row => putBy ServiceRow.serviceId row rows) directory.rows := by
  induction entries generalizing directory with
  | nil => rfl
  | cons entry entries ih =>
    have hstep : directory.insertAll (entry :: entries) = (directory.insert entry).insertAll entries :=
      rfl
    rw [hstep, ih, insert, putRow_eq_putBy]
    rfl

/-- Whether two names mean the same interface: up to backslashes in front and the case of ASCII
letters. -/
def SameInterface (a b : String) : Prop :=
  (a.toList.dropWhile (· == '\\')).map Char.toLower =
    (b.toList.dropWhile (· == '\\')).map Char.toLower

instance (a b : String) : Decidable (SameInterface a b) := inferInstanceAs (Decidable (_ = _))

/-- Whether a directory is the map that inserts make: each id has one row, that of its last
insert, and the rows stand in the order of the first inserts. An interface leads to the first row
that has it. -/
structure IsMapOf (directory : Directory) (inserts : List ServiceEntry) : Prop where
  nodup : (directory.rows.map (·.serviceId)).Nodup
  order : directory.rows.map (·.serviceId) = (inserts.map (·.serviceId)).eraseDups
  last : ∀ id, directory.lookup? id =
    (inserts.reverse.find? (·.serviceId == id)).map ServiceRow.ofEntry
  first : ∀ interface, directory.findByInterface? interface =
    directory.rows.find? fun row => decide (SameInterface row.interface interface)

theorem isMapOf_ofEntries (entries : List ServiceEntry) : (ofEntries entries).IsMapOf entries := by
  have hrows : (ofEntries entries).rows =
      tableOf ServiceRow.serviceId (entries.map ServiceRow.ofEntry) := rows_insertAll {} entries
  have hids : (entries.map ServiceRow.ofEntry).map ServiceRow.serviceId =
      entries.map ServiceEntry.serviceId := by rw [map_map]; rfl
  refine ⟨hrows ▸ nodup_map_tableOf _, by rw [hrows, map_tableOf, hids], fun id => ?_,
    fun interface => find?_congr fun row hrow => ?_⟩
  · rw [lookup?, hrows, find?_tableOf, ← map_reverse, find?_map]
    rfl
  · obtain ⟨entry, -, rfl⟩ := mem_map.mp (tableOf_subset _ (hrows ▸ hrow))
    simp only [Text.sameName, SameInterface, ServiceRow.ofEntry, Text.unrooted, Text.dropRoot,
      String.toList_ofList, dropWhile_idempotent]
    exact Bool.beq_eq_decide_eq _ _

/-- Services with different ids have one order by id. -/
theorem orderedServices_eq {settings other : Settings}
    (hkeys : (settings.services.map (·.serviceId)).Nodup)
    (hperm : settings.services.Perm other.services) :
    settings.orderedServices = other.orderedServices := by
  have hmem : ∀ settings : Settings, settings.orderedServices.Perm settings.services :=
    fun settings => mergeSort_perm _ _
  have hsorted : ∀ settings : Settings, settings.orderedServices.Pairwise fun a b =>
      decide (a.serviceId ≤ b.serviceId) = true := by
    refine fun settings => pairwise_mergeSort (fun a b c hab hbc => ?_) (fun a b => ?_) _
    · exact decide_eq_true (String.le_trans (of_decide_eq_true hab) (of_decide_eq_true hbc))
    · simpa using String.le_total a.serviceId b.serviceId
  refine List.Perm.eq_of_pairwise (fun a b ha hb hab hba => ?_) (hsorted settings) (hsorted other)
    ((hmem settings).trans (hperm.trans (hmem other).symm))
  have ha := (hmem settings).mem_iff.mp ha
  have hb := hperm.mem_iff.mpr ((hmem other).mem_iff.mp hb)
  exact inj_on_of_nodup_map hkeys ha hb
    (String.le_antisymm (of_decide_eq_true hab) (of_decide_eq_true hba))

/-- **A directory is an insertion-ordered map.** Inserts into the empty or the built-in directory
make the map of all inserts so far, no row ever moves, and settings with the same services make
the same directory. Where the rows are found through a table of indices, the inserts succeed with
the same rows, and the table leads to the row of each id. -/
theorem insertAll_isMapOf (inserts : List ServiceEntry) :
    (({} : Directory).insertAll inserts).IsMapOf inserts ∧
      (∃ indexed, Checked.directoryOf inserts = .ok indexed ∧ indexed.directory.IsMapOf inserts ∧
        ∀ id, Checked.lookup indexed id = .ok (indexed.directory.lookup? id)) ∧
      (builtin.insertAll inserts).IsMapOf (builtinEntries ++ inserts) ∧
      (∀ directory : Directory, directory.rows.map (·.serviceId) <+:
        (directory.insertAll inserts).rows.map (·.serviceId)) ∧
      ∀ settings other : Settings, (settings.services.map (·.serviceId)).Nodup →
        settings.services.Perm other.services → settings.directory = other.directory := by
  refine ⟨isMapOf_ofEntries inserts, ?_, ?_, fun directory => ?_,
    fun settings other hkeys hperm => ?_⟩
  · obtain ⟨indexed, hindexed, hsound, hdirectory⟩ := Checked.directoryOf_ok inserts
    exact ⟨indexed, hindexed, hdirectory ▸ isMapOf_ofEntries inserts, Checked.lookup_eq hsound⟩
  · have hall : builtin.insertAll inserts = ofEntries (builtinEntries ++ inserts) :=
      (foldl_append ..).symm
    exact hall ▸ isMapOf_ofEntries _
  · rw [rows_insertAll]
    exact map_prefix_foldl_putBy _ _
  · rw [Settings.directory, orderedServices_eq hkeys hperm, Settings.directory]

/-- A row that is replaced keeps its place, and two services may be given in either order. -/
theorem isMapOf_replacedRow :
    let a : ServiceEntry := ⟨"mod.a", "\\A", none, none⟩
    let b : ServiceEntry := ⟨"mod.b", "A", none, none⟩
    (({} : Directory).insertAll [a, b, { a with interface := "B" }]).IsMapOf
        [a, b, { a with interface := "B" }] ∧
      [b, a].Perm [a, b] ∧ ([b, a].map (·.serviceId)).Nodup ∧
      ({ services := [b, a] } : Settings).directory = ({ services := [a, b] } : Settings).directory := by
  intro a b
  obtain ⟨hmap, -, -, -, hsettings⟩ := insertAll_isMapOf [a, b, { a with interface := "B" }]
  exact ⟨hmap, .swap a b [], by decide, hsettings _ _ (by decide) (.swap a b [])⟩

end Directory

theorem Registry.definitions_foldl_insert (definitions : List ServiceDefinition) (registry : Registry) :
    (definitions.foldl insert registry).definitions =
      definitions.foldl (fun known new => putBy ServiceDefinition.id new known) registry.definitions := by
  have hput : ∀ new known, put new known = putBy ServiceDefinition.id new known := by
    intro new known
    induction known with
    | nil => rfl
    | cons other known ih => rw [put, putBy, ih]
  induction definitions generalizing registry with
  | nil => rfl
  | cons new definitions ih => rw [foldl_cons, ih, insert, hput, foldl_cons]

namespace ServiceIndex

/-! ### The files of a walk -/

mutual

/-- The texts of the services files below a file or directory with a name, in the order of the
walk. -/
def walked (levels : List IgnoreLevel) (name : String) : Tree → List (Option String)
  | .file text => if isServicesFile name then [text] else []
  | .directory entries =>
    walkedEntries (IgnoreLevel.ofDirectory (.directory entries) :: levels.map (·.enter name)) entries

/-- The texts of the services files below the entries of a directory. -/
def walkedEntries (levels : List IgnoreLevel) : List (String × Tree) → List (Option String)
  | [] => []
  | (name, tree) :: rest =>
    let isDirectory := match tree with
      | .directory _ => true
      | .file _ => false
    (if isLeftOut levels name isDirectory then [] else walked levels name tree) ++
      walkedEntries levels rest

end

mutual

theorem addTree_eq_foldl (levels : List IgnoreLevel) (index : ServiceIndex) (name : String) :
    ∀ tree, addTree levels index name tree = (walked levels name tree).foldl addFile index
  | .file text => by
    rw [addTree, walked]
    split <;> rfl
  | .directory entries => by rw [addTree, walked, addEntries_eq_foldl]

theorem addEntries_eq_foldl (levels : List IgnoreLevel) (index : ServiceIndex) :
    ∀ entries, addEntries levels index entries = (walkedEntries levels entries).foldl addFile index
  | [] => by rw [addEntries, walkedEntries, foldl_nil]
  | (name, tree) :: rest => by
    rw [addEntries.eq_def, walkedEntries.eq_def]
    dsimp only
    rw [addEntries_eq_foldl, addTree_eq_foldl, foldl_append,
      apply_ite (foldl addFile index)]
    cases tree <;> rfl

end

theorem scan_eq_foldl (name : String) (tree : Tree) :
    scan name tree = (walked [] name tree).foldl addFile {} := addTree_eq_foldl [] {} name tree

/-! ### What files declare -/

/-- The services that a file declares; none if it cannot be read. -/
def declared (text : Option String) : List ServiceDefinition :=
  (text.bind Declarations.parse).getD []

/-- Whether a file can be read. -/
def isReadable (text : Option String) : Bool := (text.bind Declarations.parse).isSome

/-- Whether two files declare no id in common. -/
def Apart (a b : Option String) : Prop := ∀ x ∈ declared a, ∀ y ∈ declared b, x.id ≠ y.id

theorem foldl_addFile (files : List (Option String)) : files.foldl addFile {} =
    ⟨⟨tableOf ServiceDefinition.id (files.flatMap declared)⟩, files.countP isReadable⟩ := by
  induction files using reverseRecOn with
  | nil => rfl
  | append_singleton files text ih =>
    rw [foldl_append, ih, foldl_cons, foldl_nil, addFile, flatMap_append,
      countP_append, flatMap_singleton, countP_singleton, declared, isReadable]
    cases text.bind Declarations.parse with
    | none => simp
    | some definitions =>
      have hinsert := Registry.definitions_foldl_insert definitions
        ⟨tableOf ServiceDefinition.id (files.flatMap declared)⟩
      have happend : tableOf ServiceDefinition.id (files.flatMap declared ++ definitions) = _ :=
        foldl_append.trans hinsert.symm
      rw [Option.getD_some, happend]
      rfl

/-- Files that cannot be read declare nothing. -/
theorem flatMap_declared_filter (files : List (Option String)) :
    (files.filter isReadable).flatMap declared = files.flatMap declared := by
  induction files with
  | nil => rfl
  | cons text files ih =>
    rw [filter_cons, flatMap_cons, ← ih]
    cases hparse : text.bind Declarations.parse <;> simp [isReadable, declared, hparse]

variable {files files' : List (Option String)}

/-- The last definition of an id is that of the one file that declares it. -/
theorem find?_declared (hapart : files.Pairwise Apart) {text : Option String} (htext : text ∈ files)
    {definition : ServiceDefinition} (hmem : definition ∈ declared text) :
    (files.flatMap declared).reverse.find? (·.id == definition.id) =
      (declared text).reverse.find? (·.id == definition.id) := by
  obtain ⟨front, back, rfl⟩ := append_of_mem htext
  have hback : (back.flatMap declared).reverse.find? (·.id == definition.id) = none := by
    refine find?_eq_none.mpr fun other hother => ?_
    obtain ⟨text', htext', hother⟩ := mem_flatMap.mp (mem_reverse.mp hother)
    have hne := (pairwise_cons.mp (pairwise_append.mp hapart).2.1).1 text' htext' _ hmem _ hother
    simpa using Ne.symm hne
  obtain ⟨found, hfound⟩ := Option.isSome_iff_exists.mp (find?_isSome
    (p := (·.id == definition.id)).mpr ⟨definition, mem_reverse.mpr hmem, beq_self_eq_true _⟩)
  rw [flatMap_append, flatMap_cons, reverse_append, reverse_append, find?_append,
    find?_append, hback, hfound]
  rfl

/-- **The order of a walk does not matter.** A scan adds files one by one; if no two of them
declare the same id, any other order of the files gives the same definition for every id, the
same number of services and the same number of files. Files that cannot be read add nothing. -/
theorem scan_anyOrder (hapart : files.Pairwise Apart) (hperm : files.Perm files') :
    (∀ name tree, scan name tree = (walked [] name tree).foldl addFile {}) ∧
      (∀ id, (files.foldl addFile {}).registry.lookup? id =
        (files'.foldl addFile {}).registry.lookup? id) ∧
      (files.foldl addFile {}).registry.size = (files'.foldl addFile {}).registry.size ∧
      (files.foldl addFile {}).filesScanned = (files'.foldl addFile {}).filesScanned ∧
      files.foldl addFile {} = (files.filter isReadable).foldl addFile {} := by
  have hall := hperm.flatMap_right declared
  have hapart' : files'.Pairwise Apart := hapart.perm hperm fun h x hx y hy => Ne.symm (h y hy x hx)
  refine ⟨scan_eq_foldl, ?_⟩
  simp only [foldl_addFile]
  refine ⟨fun id => ?_, ?_, hperm.countP_eq _, ?_⟩
  · rw [Registry.lookup?, Registry.lookup?, find?_tableOf, find?_tableOf]
    by_cases hknown : ∃ definition ∈ files.flatMap declared, definition.id = id
    · obtain ⟨definition, hmem, rfl⟩ := hknown
      obtain ⟨text, htext, hmem⟩ := List.mem_flatMap.mp hmem
      rw [find?_declared hapart htext hmem, find?_declared hapart' (hperm.mem_iff.mp htext) hmem]
    · have hnone : ∀ definitions : List ServiceDefinition, definitions.Perm (files.flatMap declared) →
          definitions.reverse.find? (·.id == id) = none := fun definitions hsame =>
        List.find?_eq_none.mpr fun definition hmem heq => hknown
          ⟨definition, hsame.mem_iff.mp (List.mem_reverse.mp hmem), beq_iff_eq.mp heq⟩
      rw [hnone _ (.refl _), hnone _ hall.symm]
  · have hids : ((tableOf ServiceDefinition.id (files.flatMap declared)).map ServiceDefinition.id).Perm
        ((tableOf ServiceDefinition.id (files'.flatMap declared)).map ServiceDefinition.id) := by
      refine (List.perm_ext_iff_of_nodup (nodup_map_tableOf _) (nodup_map_tableOf _)).mpr fun id => ?_
      rw [map_tableOf, map_tableOf, List.mem_eraseDups, List.mem_eraseDups, (hall.map _).mem_iff]
    simpa [Registry.size] using hids.length_eq
  · simp only [flatMap_declared_filter, List.countP_filter, Bool.and_self]

/-- A file is read in two steps: its tokens, and the services that they declare. -/
theorem parse_of_tokens {text : String} (tokens : List Yaml.Token)
    {definitions : List ServiceDefinition} (hcode : Text.isBlankLine text.toList = false)
    (htokens : Yaml.tokenize text = some tokens)
    (hread : (Yaml.Document.ofTokens? tokens).bind Declarations.ofDocument = some definitions) :
    Declarations.parse text = some definitions := by
  rw [Declarations.parse, hcode, htokens]
  exact hread

/-- Two files that declare a service each, and two that cannot be read. Both services are found,
whichever file is read first. -/
theorem anyOrder_twoServices :
    let files := [some "services:\n a:", none, some "[", some "services:\n b:"]
    files.Pairwise Apart ∧ files.Perm files.reverse ∧ (files.foldl addFile {}).filesScanned = 2 ∧
      (files.foldl addFile {}).registry.lookup? "a" = some ⟨"a", none⟩ ∧
      ∀ id, (files.foldl addFile {}).registry.lookup? id =
        (files.reverse.foldl addFile {}).registry.lookup? id := by
  intro files
  let tokens (id : String) : List Yaml.Token := [.blockMappingStart, .key,
    .scalar .plain "services", .value, .blockMappingStart, .key, .scalar .plain id, .value,
    .blockEnd, .blockEnd]
  have ha : Declarations.parse "services:\n a:" = some [⟨"a", none⟩] :=
    parse_of_tokens (tokens "a") (by decide) (by decide +kernel) (by decide +kernel)
  have hb : Declarations.parse "services:\n b:" = some [⟨"b", none⟩] :=
    parse_of_tokens (tokens "b") (by decide) (by decide +kernel) (by decide +kernel)
  have hbroken : Declarations.parse "[" = none := by decide +kernel
  have hapart : files.Pairwise Apart := by simp [files, Apart, declared, ha, hb, hbroken]
  have hperm : files.Perm files.reverse := (List.reverse_perm files).symm
  obtain ⟨-, hlookup, -, -, -⟩ := scan_anyOrder hapart hperm
  refine ⟨hapart, hperm, ?_, ?_, hlookup⟩
  · rw [foldl_addFile]
    simp [files, isReadable, ha, hb, hbroken]
  · rw [foldl_addFile]
    simp [files, declared, ha, hb, hbroken]
    rfl

end ServiceIndex

end ServiceInjection
