import ServiceInjection.Proofs.Text.Checked
import ServiceInjection.Service.Directory

/-!
# Service.Indexed

A directory whose rows are found by their indices. A table gives the index of the row for an
id. An insert sets the row at that index or adds one behind the others, so the table always
leads to the row of the id (`IndexedDirectory.Sound`): no index lies behind the rows, and a
lookup finds what `Directory.lookup?` finds (`Checked.lookup_eq`).
-/

namespace ServiceInjection

open List

/-- Rows, and a table with the indices of the rows of ids. -/
structure IndexedDirectory where
  rows : List ServiceRow := []
  table : List (String × Nat) := []

namespace IndexedDirectory

/-- Whether the table gives the first index at which an id stands, for every id. -/
def Sound (indexed : IndexedDirectory) : Prop :=
  ∀ id, indexed.table.lookup id = indexed.rows.findIdx? (·.serviceId == id)

/-- The directory of the rows. -/
def directory (indexed : IndexedDirectory) : Directory := ⟨indexed.rows⟩

end IndexedDirectory

/-- A row replaces the first one with its id, or is added behind the others. -/
theorem Directory.putRow_eq (row : ServiceRow) (rows : List ServiceRow) :
    putRow row rows =
      match rows.findIdx? (·.serviceId == row.serviceId) with
      | some i => rows.set i row
      | none => rows ++ [row] := by
  induction rows with
  | nil => rfl
  | cons other rest ih =>
    rw [putRow, findIdx?_cons]
    split
    · rfl
    · rw [ih]
      cases rest.findIdx? (·.serviceId == row.serviceId) <;> rfl

/-- A row put into a directory is found where one with its id was, or at the end. -/
theorem Directory.findIdx?_putRow (row : ServiceRow) (rows : List ServiceRow) (id : String) :
    (putRow row rows).findIdx? (·.serviceId == id) =
      if row.serviceId == id then
        (rows.findIdx? (·.serviceId == id)).or (some rows.length)
      else rows.findIdx? (·.serviceId == id) := by
  induction rows with
  | nil => simp [putRow, findIdx?_cons]
  | cons other rest ih =>
    rw [putRow]
    by_cases hsame : other.serviceId = row.serviceId
    · rw [if_pos (by simpa using hsame)]
      by_cases hid : row.serviceId = id <;> simp [findIdx?_cons, hsame, hid]
    · rw [if_neg (by simpa using hsame), findIdx?_cons, findIdx?_cons, ih]
      by_cases hid : row.serviceId = id
      · subst hid
        cases hrest : rest.findIdx? (·.serviceId == row.serviceId) <;> simp [hsame]
      · simp [hid]

namespace Checked

variable {indexed : IndexedDirectory}

/-- Adds or replaces the row of a service. -/
def insert (indexed : IndexedDirectory) (entry : ServiceEntry) : Checked IndexedDirectory :=
  let row := ServiceRow.ofEntry entry
  match indexed.table.lookup entry.serviceId with
  | some i => do
    let _ ← get indexed.rows i
    .ok { indexed with rows := indexed.rows.set i row }
  | none =>
    .ok ⟨indexed.rows ++ [row], (entry.serviceId, indexed.rows.length) :: indexed.table⟩

theorem insert_ok (h : indexed.Sound) (entry : ServiceEntry) :
    ∃ next, insert indexed entry = .ok next ∧ next.Sound ∧
      next.directory = indexed.directory.insert entry := by
  have hput := Directory.putRow_eq (.ofEntry entry) indexed.rows
  have hfind := Directory.findIdx?_putRow (.ofEntry entry) indexed.rows
  have hid : (ServiceRow.ofEntry entry).serviceId = entry.serviceId := rfl
  rw [hid, ← h entry.serviceId] at hput
  rw [insert]
  cases hlookup : indexed.table.lookup entry.serviceId with
  | some i =>
    simp only [hlookup] at hput
    have hindex : indexed.rows.findIdx? (·.serviceId == entry.serviceId) = some i :=
      (h _).symm.trans hlookup
    have hlt : i < indexed.rows.length := (findIdx?_eq_some_iff_getElem.mp hindex).1
    refine ⟨⟨indexed.rows.set i (.ofEntry entry), indexed.table⟩, ?_, fun id => ?_,
      congrArg Directory.mk hput.symm⟩
    · simp [get, getElem?_eq_getElem hlt]
    · show indexed.table.lookup id = (indexed.rows.set i _).findIdx? (·.serviceId == id)
      rw [h id, ← hput, hfind, hid]
      by_cases heq : entry.serviceId = id
      · subst heq
        simp [hindex]
      · simp [heq]
  | none =>
    simp only [hlookup] at hput
    refine ⟨_, rfl, fun id => ?_, congrArg Directory.mk hput.symm⟩
    show lookup id (_ :: indexed.table) = (indexed.rows ++ [ServiceRow.ofEntry entry]).findIdx?
      (ServiceRow.serviceId · == id)
    rw [← hput, hfind, hid, lookup_cons, h id]
    by_cases heq : entry.serviceId = id
    · subst heq
      rw [← h, hlookup]
      simp
    · rw [beq_eq_false_iff_ne.mpr (Ne.symm heq), if_neg (by simpa using heq)]

/-- The directory of the given entries. -/
def directoryOf (entries : List ServiceEntry) : Checked IndexedDirectory := entries.foldlM insert {}

/-- **Building a directory succeeds**, and its table leads to its rows. -/
theorem directoryOf_ok (entries : List ServiceEntry) :
    ∃ indexed, directoryOf entries = .ok indexed ∧ indexed.Sound ∧
      indexed.directory = .ofEntries entries := by
  have hfold : ∀ {indexed : IndexedDirectory}, indexed.Sound →
      ∃ last, entries.foldlM insert indexed = .ok last ∧ last.Sound ∧
        last.directory = indexed.directory.insertAll entries := by
    induction entries with
    | nil => exact fun h => ⟨_, rfl, h, rfl⟩
    | cons entry entries ih =>
      intro indexed h
      obtain ⟨next, hnext, hsound, hdirectory⟩ := insert_ok h entry
      obtain ⟨last, hlast, hsound', hdirectory'⟩ := ih hsound
      refine ⟨last, ?_, hsound', ?_⟩
      · rw [foldlM_cons, hnext, ok_bind, hlast]
      · rw [hdirectory', hdirectory]
        rfl
  exact hfold fun id => rfl

/-- The row of a service. -/
def lookup (indexed : IndexedDirectory) (id : String) : Checked (Option ServiceRow) :=
  match indexed.table.lookup id with
  | none => .ok none
  | some i => do
    let row ← get indexed.rows i
    .ok (some row)

theorem lookup_eq (h : indexed.Sound) (id : String) :
    lookup indexed id = .ok (indexed.directory.lookup? id) := by
  rw [lookup, h id, Directory.lookup?]
  cases hindex : indexed.rows.findIdx? (·.serviceId == id) with
  | none =>
    have hnone : indexed.directory.rows.find? (·.serviceId == id) = none := by
      rw [find?_eq_none]
      exact fun row hrow => by simpa using findIdx?_eq_none_iff.mp hindex row hrow
    rw [hnone]
  | some i =>
    obtain ⟨hlt, hrow, hbefore⟩ := findIdx?_eq_some_iff_getElem.mp hindex
    have hsome : indexed.rows.find? (·.serviceId == id) = some indexed.rows[i] :=
      find?_eq_some_iff_getElem.mpr ⟨hrow, i, hlt, rfl, fun j hj => by simpa using hbefore j hj⟩
    rw [IndexedDirectory.directory, hsome]
    simp [get, getElem?_eq_getElem hlt]

end Checked

end ServiceInjection
